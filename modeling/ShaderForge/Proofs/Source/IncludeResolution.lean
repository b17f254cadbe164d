import ShaderForge.Proofs.Source.IncludeGraph

/-!
# ShaderForge.Proofs.Source.IncludeResolution

Merging succeeds exactly on include graphs that can be read, have no cycle and are not too deep; otherwise
it reports the first directive that cannot be followed.

* `Merge.Runs`   — what a merge does from every state of an invariant.
* `Host.Steady`  — a host that answers as a shelf does.
* `Judged`       — a result and what it says of the walks below a frame.
* `expand_judged` — by induction on how much deeper includes may nest.
* `resolveText_judges_graph` — the whole merge against the whole graph.
-/

namespace ShaderForge

variable {σ α β : Type} {I : σ → Prop}
variable {r : Except ParseError α}

/-! ## Merges as runs -/

/-- From every state of the invariant the merge comes to a state of the invariant, with a result as said. -/
def Merge.Runs (I : σ → Prop) (x : Merge (StateM σ) α) (Q : Except ParseError α → Prop) : Prop :=
  ∀ s, I s → ∃ r s', x.run.run s = (r, s') ∧ I s' ∧ Q r

namespace Merge

variable {Q : Except ParseError α → Prop} {x : Merge (StateM σ) α} {f : α → Merge (StateM σ) β}

theorem runs_pure {a : α} (h : Q (.ok a)) :
    Runs I (pure a : Merge (StateM σ) α) Q :=
  fun s hs => ⟨.ok a, s, rfl, hs, h⟩

theorem runs_throw {e : ParseError} (h : Q (.error e)) :
    Runs I (throw e : Merge (StateM σ) α) Q :=
  fun s hs => ⟨.error e, s, rfl, hs, h⟩

theorem runs_lift {x : StateM σ α} (h : ∀ s, I s → ∃ a s', x.run s = (a, s') ∧ I s' ∧ Q (.ok a)) :
    Runs I (liftM x : Merge (StateM σ) α) Q := by
  intro s hs
  obtain ⟨a, s', hx, hs', ha⟩ := h s hs
  refine ⟨.ok a, s', ?_, hs', ha⟩
  change (x >>= fun a => pure (Except.ok a)).run s = _
  rw [StateT.run_bind, hx]
  rfl

theorem runs_bind {P : Except ParseError α → Prop} {Q : Except ParseError β → Prop} (hx : Runs I x P)
    (hok : ∀ a, P (.ok a) → Runs I (f a) Q) (herror : ∀ e, P (.error e) → Q (.error e)) :
    Runs I (x >>= f) Q := by
  intro s hs
  obtain ⟨r, s', hr, hs', hP⟩ := hx s hs
  cases r with
  | ok a =>
    obtain ⟨r', s'', hr', hs'', hQ⟩ := hok a hP s' hs'
    refine ⟨r', s'', ?_, hs'', hQ⟩
    rw [ExceptT.run_bind, StateT.run_bind, hr]
    exact hr'
  | error e =>
    refine ⟨.error e, s', ?_, hs', herror e hP⟩
    rw [ExceptT.run_bind, StateT.run_bind, hr]
    rfl

/-- From every state of the invariant the merge gives the same result. -/
def Gives (I : σ → Prop) (x : Merge (StateM σ) α) (r : Except ParseError α) : Prop :=
  Runs I x fun r' => r' = r

theorem gives_bind_ok {a : α} {r : Except ParseError β} (hx : Gives I x (.ok a)) (hf : Gives I (f a) r) :
    Gives I (x >>= f) r := by
  refine runs_bind hx ?_ ?_
  · intro b hb
    cases hb
    exact hf
  · intro e he
    cases he

theorem gives_bind_error {e : ParseError} (hx : Gives I x (.error e)) : Gives I (x >>= f) (.error e) := by
  refine runs_bind hx ?_ ?_
  · intro b hb
    cases hb
  · intro e' he'
    cases he'
    rfl

end Merge

/-! ## A host that does not change -/

/-- The host answers as the shelf does, from every state of the invariant, and keeps the invariant. -/
structure Host.Steady (host : Host (StateM σ)) (shelf : Shelf) (I : σ → Prop) : Prop where
  read : ∀ p s, I s → ∃ s', (host.read p).run s = (shelf.read p, s') ∧ I s'
  present : ∀ p s, I s → ∃ s', (host.present p).run s = (shelf.present p, s') ∧ I s'
  note : ∀ n s, I s → ∃ s', (host.note n).run s = ((), s') ∧ I s'

namespace IncludeGraph

variable {g : IncludeGraph} {host : Host (StateM σ)}

theorem run_firstPresent (hh : host.Steady g.shelf I) (ps : List Path) {s : σ} (hs : I s) :
    ∃ s', (firstPresent host ps).run s = (ps.find? g.shelf.present, s') ∧ I s' := by
  induction ps generalizing s with
  | nil => exact ⟨s, rfl, hs⟩
  | cons p ps ih =>
    obtain ⟨s1, hp, hs1⟩ := hh.present p s hs
    rw [firstPresent, StateT.run_bind, hp, List.find?_cons]
    cases g.shelf.present p with
    | true => exact ⟨s1, rfl, hs1⟩
    | false => exact ih hs1

theorem run_locateTarget (hh : host.Steady g.shelf I) (name : Bytes) {s : σ} (hs : I s) :
    ∃ s', (locateTarget host g.opts (Path.dir g.file) name).run s = (g.target name, s') ∧ I s' := by
  unfold locateTarget target
  split
  · exact ⟨s, rfl, hs⟩
  · obtain ⟨s', hp, hs'⟩ := run_firstPresent hh
      ((Path.dir g.file :: g.opts.includeDirs).map fun dir =>
        Path.absolute g.opts.cwd (Path.join dir name)) hs
    refine ⟨s', ?_, hs'⟩
    dsimp only
    rw [StateT.run_bind, hp]
    generalize List.find? g.shelf.present _ = found
    cases found <;> rfl

theorem runs_fetch (hh : host.Steady g.shelf I) {fr : Frame} (hdepth : fr.chain.length ≤ g.opts.maxDepth)
    (place : Location) (name : Bytes) :
    Merge.Runs I (fetch host g.opts (Path.dir g.file) fr.chain place name) fun r =>
      match g.follow fr (place.line, name) with
      | .error fault => r = .error ⟨place.file, place.line, .badInclude fault⟩
      | .ok fr' => r = .ok (fr'.file, fr'.text) ∧ fr'.chain = fr.chain ++ [fr'.file] := by
  unfold fetch
  refine Merge.runs_bind (P := fun r => r = .ok (g.target name)) (Merge.runs_lift ?_) ?_ ?_
  · intro s hs
    obtain ⟨s', hrun, hs'⟩ := run_locateTarget hh name hs
    exact ⟨_, s', hrun, hs', rfl⟩
  · intro path hpath
    cases hpath
    by_cases hmem : g.target name ∈ fr.chain
    · have hfollow : g.follow fr (place.line, name) = .error (.cycle (fr.chain ++ [g.target name])) := by
        rw [follow, if_neg (Nat.not_lt.2 hdepth), if_pos hmem]
      rw [hfollow, if_pos (List.contains_iff_mem.2 hmem)]
      exact Merge.runs_throw rfl
    · rw [if_neg (fun h => hmem (List.contains_iff_mem.1 h)), follow, if_neg (Nat.not_lt.2 hdepth),
        if_neg hmem]
      refine Merge.runs_bind (P := fun r => r = .ok (g.shelf.read (g.target name)))
        (Merge.runs_lift ?_) ?_ ?_
      · intro s hs
        obtain ⟨s', hrun, hs'⟩ := hh.read (g.target name) s hs
        exact ⟨_, s', hrun, hs', rfl⟩
      · intro found hfound
        cases hfound
        cases g.shelf.read (g.target name) with
        | error e => exact Merge.runs_throw rfl
        | ok text =>
          refine Merge.runs_bind (P := fun r => r = .ok ()) (Merge.runs_lift ?_) ?_ ?_
          · intro s hs
            obtain ⟨s', hrun, hs'⟩ := hh.note (.included name (g.target name) fr.chain.length) s hs
            exact ⟨_, s', hrun, hs', rfl⟩
          · intro _ _
            exact Merge.runs_pure ⟨rfl, rfl⟩
          · intro e he
            cases he
      · intro e he
        cases he
  · intro e he
    cases he

end IncludeGraph

/-! ## The directives of a text, one after another -/

/-- A result of taking the directives in order: all of them went well, or the first that did not gives the
error. -/
inductive Outcome (out : Nat × Bytes → Except ParseError β → Prop) :
    List (Nat × Bytes) → Except ParseError α → Prop
  | done {ds : List (Nat × Bytes)} {a : α} (h : ∀ d ∈ ds, ∃ b, out d (.ok b)) : Outcome out ds (.ok a)
  | stop {ds before after : List (Nat × Bytes)} {d : Nat × Bytes} {e : ParseError}
      (hds : ds = before ++ d :: after) (h : ∀ d ∈ before, ∃ b, out d (.ok b)) (hd : out d (.error e)) :
      Outcome out ds (.error e)

namespace Outcome

variable {γ : Type} {out : Nat × Bytes → Except ParseError β → Prop} {ds ds' : List (Nat × Bytes)}

theorem all_ok {a : α} (h : Outcome out ds (.ok a)) : ∀ d ∈ ds, ∃ b, out d (.ok b) := by
  cases h with
  | done hall => exact hall

theorem append_error {e : ParseError} (h : Outcome out ds (.error e : Except ParseError α))
    (ds' : List (Nat × Bytes)) : Outcome out (ds ++ ds') (.error e : Except ParseError γ) := by
  cases h with
  | stop hds hbefore hd =>
    rw [hds, List.append_assoc, List.cons_append]
    exact .stop rfl hbefore hd

theorem append {r' : Except ParseError γ} (hr : Outcome out ds' r) (h : ∀ d ∈ ds, ∃ b, out d (.ok b))
    (hok : ∀ a, r = .ok a → ∃ c, r' = .ok c) (herror : ∀ e, r = .error e → r' = .error e) :
    Outcome out (ds ++ ds') r' := by
  cases hr with
  | @done a hall =>
    obtain ⟨c, rfl⟩ := hok a rfl
    exact .done (List.forall_mem_append.2 ⟨h, hall⟩)
  | @stop before after d e hds hbefore hd =>
    rw [herror e rfl, hds, ← List.append_assoc]
    exact .stop rfl (List.forall_mem_append.2 ⟨h, hbefore⟩) hd

end Outcome

variable {out : Nat × Bytes → Except ParseError (List MergedLine) → Prop}
  {fol : Location → Bytes → Merge (StateM σ) (List MergedLine)}

theorem gives_foldlM_directives {γ : Type} (place : Location) (put : γ → Bytes → List MergedLine → γ)
    (ds : List (Bytes × Bytes)) (acc : γ)
    (h : ∀ d ∈ ds, ∃ r, Merge.Gives I (fol place d.1) r ∧ out (place.line, d.1) r) :
    ∃ r, Merge.Gives I (ds.foldlM (fun acc d => do return put acc d.2 (← fol place d.1)) acc) r ∧
      Outcome out (ds.map fun d => (place.line, d.1)) r := by
  induction ds generalizing acc with
  | nil => exact ⟨.ok acc, Merge.runs_pure rfl, .done (by simp)⟩
  | cons d ds ih =>
    obtain ⟨r, hr, hout⟩ := h d (by simp)
    rw [List.foldlM_cons, List.map_cons]
    cases r with
    | error e =>
      have hstop : Outcome out ([] ++ (place.line, d.1) :: ds.map fun d => (place.line, d.1))
          (.error e : Except ParseError γ) := .stop rfl (by simp) hout
      exact ⟨.error e, Merge.gives_bind_error (Merge.gives_bind_error hr), hstop⟩
    | ok ls =>
      obtain ⟨r, hfold, hrest⟩ := ih (put acc d.2 ls) fun d' hd' => h d' (by simp [hd'])
      refine ⟨r, Merge.gives_bind_ok (Merge.gives_bind_ok hr (Merge.runs_pure rfl)) hfold, ?_⟩
      rw [← List.singleton_append]
      refine hrest.append ?_ (fun a ha => ⟨a, ha⟩) (fun e he => he)
      intro d' hd'
      obtain rfl := List.mem_singleton.1 hd'
      exact ⟨ls, hout⟩

theorem gives_expandLine (place : Location) (line : Bytes)
    (h : ∀ d ∈ (cutDirectives line).2, ∃ r,
      Merge.Gives I (fol place d.1) r ∧ out (place.line, d.1) r) :
    ∃ r, Merge.Gives I (expandLine fol place line) r ∧
      Outcome out ((cutDirectives line).2.map fun d => (place.line, d.1)) r := by
  obtain ⟨r, hr, hout⟩ := gives_foldlM_directives place
    (fun (acc : List MergedLine × MergedLine) after ls =>
      (acc.1 ++ (splice acc.2 ls).1, { (splice acc.2 ls).2 with text := (splice acc.2 ls).2.text ++ after }))
    (cutDirectives line).2 ([], ⟨(cutDirectives line).1, place⟩) h
  cases r with
  | error e =>
    have herror : Outcome out (_ ++ []) (.error e : Except ParseError (List MergedLine)) :=
      hout.append_error []
    rw [List.append_nil] at herror
    exact ⟨.error e, Merge.gives_bind_error hr, herror⟩
  | ok acc =>
    exact ⟨.ok (acc.1 ++ [acc.2]), Merge.gives_bind_ok hr (Merge.runs_pure rfl), .done hout.all_ok⟩

theorem gives_expandLines (file : Path) (number : Nat) (lines : List Bytes)
    (h : ∀ d ∈ directivesFrom number lines, ∃ r, Merge.Gives I (fol ⟨file, d.1⟩ d.2) r ∧ out d r) :
    ∃ r, Merge.Gives I (expandLines fol file number lines) r ∧
      Outcome out (directivesFrom number lines) r := by
  induction lines generalizing number with
  | nil => exact ⟨.ok [], Merge.runs_pure rfl, .done (by simp [directivesFrom])⟩
  | cons line lines ih =>
    obtain ⟨r, hr, hout⟩ := gives_expandLine ⟨file, number⟩ line fun d hd =>
      h (number, d.1) (List.mem_append_left _ (List.mem_map_of_mem hd))
    rw [expandLines, directivesFrom]
    cases r with
    | error e => exact ⟨.error e, Merge.gives_bind_error hr, hout.append_error _⟩
    | ok first =>
      obtain ⟨r', hr', hout'⟩ := ih (number + 1) fun d hd => h d (List.mem_append_right _ hd)
      cases r' with
      | error e =>
        refine ⟨.error e, Merge.gives_bind_ok hr (Merge.gives_bind_error hr'), ?_⟩
        exact hout'.append hout.all_ok (by simp) (fun e he => by cases he; rfl)
      | ok rest =>
        refine ⟨.ok (first ++ rest), Merge.gives_bind_ok hr (Merge.gives_bind_ok hr' (Merge.runs_pure rfl)), ?_⟩
        exact hout'.append hout.all_ok (fun _ _ => ⟨_, rfl⟩) (by simp)

/-! ## Frame by frame -/

namespace IncludeGraph

/-- What a result says of the walks from a frame on. -/
inductive Judged (g : IncludeGraph) (fr : Frame) : Except ParseError α → Prop
  | clean {a : α} (h : ∀ trail e, ¬ g.Offends fr trail e) : Judged g fr (.ok a)
  | first {trail : List Nat} {e : ParseError} (h : g.First fr trail e) : Judged g fr (.error e)

/-- What a result says of one directive. -/
inductive Answers (g : IncludeGraph) (fr : Frame) (d : Nat × Bytes) :
    Except ParseError (List MergedLine) → Prop
  | refused {fault : IncludeFault} (h : g.follow fr d = .error fault) :
      Answers g fr d (.error ⟨fr.file, d.1, .badInclude fault⟩)
  | followed {fr' : Frame} {r : Except ParseError (List MergedLine)} (h : g.follow fr d = .ok fr')
      (hr : g.Judged fr' r) : Answers g fr d r

variable {g : IncludeGraph} {fr : Frame} {host : Host (StateM σ)}

theorem Answers.clean {d : Nat × Bytes} {ls : List MergedLine} (h : g.Answers fr d (.ok ls)) :
    ∃ fr', g.follow fr d = .ok fr' ∧ ∀ trail e, ¬ g.Offends fr' trail e := by
  cases h with
  | followed hf hr =>
    cases hr with
    | clean hnone => exact ⟨_, hf, hnone⟩

theorem judged_of_outcome (h : Outcome (g.Answers fr) (directives fr.text) r) :
    g.Judged fr r := by
  cases h with
  | done hall =>
    refine .clean ?_
    intro trail e ho
    cases ho with
    | here hd hf =>
      obtain ⟨ls, hls⟩ := hall _ (List.mem_of_getElem? hd)
      obtain ⟨fr', hok, _⟩ := hls.clean
      rw [hf] at hok
      cases hok
    | deeper hd hf ht =>
      obtain ⟨ls, hls⟩ := hall _ (List.mem_of_getElem? hd)
      obtain ⟨fr', hok, hnone⟩ := hls.clean
      rw [hf] at hok
      cases hok
      exact hnone _ _ ht
  | @stop before after d e hds hbefore hd =>
    have hget : (directives fr.text)[before.length]? = some d := by simp [hds]
    have hclean : g.Clean fr before.length := by
      intro j hj d' hd'
      rw [hds, List.getElem?_append_left hj] at hd'
      obtain ⟨ls, hls⟩ := hbefore d' (List.mem_of_getElem? hd')
      exact hls.clean
    cases hd with
    | refused hf => exact .first (first_here hclean hget hf)
    | followed hf hr =>
      cases hr with
      | first hfirst => exact .first (first_deeper hclean hget hf hfirst)

/-- What merging a text gives judges the walks from its frame on. The budget is what the chain leaves of
the depth limit. -/
theorem expand_judged (hh : host.Steady g.shelf I) (budget : Nat) (fr : Frame)
    (hb : fr.chain.length + budget = g.opts.maxDepth + 1) :
    ∃ r, Merge.Gives I (expand host g.opts (Path.dir g.file) budget fr.chain fr.file fr.text) r ∧
      g.Judged fr r := by
  induction budget generalizing fr with
  | zero =>
    rw [expand]
    refine (gives_expandLines fr.file 1 (Bytes.lines fr.text) ?_).imp fun r hr =>
      ⟨hr.1, judged_of_outcome hr.2⟩
    intro d _
    have hdeep : g.follow fr d = .error (.tooDeep d.2 g.opts.maxDepth) := by
      rw [follow, if_pos (by omega)]
    exact ⟨_, Merge.runs_throw rfl, .refused hdeep⟩
  | succ budget ih =>
    rw [expand]
    refine (gives_expandLines fr.file 1 (Bytes.lines fr.text) ?_).imp fun r hr =>
      ⟨hr.1, judged_of_outcome hr.2⟩
    intro d _
    have hdepth : fr.chain.length ≤ g.opts.maxDepth := by omega
    have hfetch := runs_fetch hh hdepth ⟨fr.file, d.1⟩ d.2
    cases hf : g.follow fr d with
    | error fault =>
      simp only [hf] at hfetch
      exact ⟨_, Merge.gives_bind_error hfetch, .refused hf⟩
    | ok fr' =>
      simp only [hf] at hfetch
      obtain ⟨_, _, text, _, rfl⟩ := follow_eq_ok hf
      obtain ⟨r, hr, hjudged⟩ := ih ⟨fr.chain ++ [g.target d.2], g.target d.2, text⟩ (by
        simp only [List.length_append, List.length_cons, List.length_nil]
        omega)
      refine ⟨r, Merge.runs_bind hfetch ?_ ?_, .followed hf hjudged⟩
      · rintro ⟨path, text'⟩ ⟨hpath, _⟩
        cases hpath
        exact hr
      · rintro e ⟨he, _⟩
        cases he

theorem judged_resolvable_iff (h : g.Judged g.root r) :
    (∃ a, r = .ok a) ↔ g.Resolvable := by
  rw [resolvable_iff]
  cases h with
  | @clean a hnone => exact ⟨fun _ => hnone, fun _ => ⟨a, rfl⟩⟩
  | first hfirst =>
    constructor
    · rintro ⟨a, ha⟩
      cases ha
    · intro hnone
      exact absurd hfirst.offends (hnone _ _)

theorem judged_error_iff (h : g.Judged fr r) (e : ParseError) :
    r = .error e ↔ ∃ trail, g.First fr trail e := by
  cases h with
  | clean hnone =>
    constructor
    · intro he
      cases he
    · rintro ⟨trail, hfirst⟩
      exact absurd hfirst.offends (hnone _ _)
  | first hfirst =>
    constructor
    · intro he
      cases he
      exact ⟨_, hfirst⟩
    · rintro ⟨trail, hfirst'⟩
      rw [hfirst.unique hfirst']

end IncludeGraph

/-- Merging succeeds exactly if everything reachable in the include graph can be read, no cycle is reachable and no
walk is longer than the limit. Otherwise it reports an include fault at the first directive, depth first and from
left to right, that cannot be followed; and what it reports as a cycle is a walk from the root that closes. -/
theorem resolveText_judges_graph {host : Host (StateM σ)} {shelf : Shelf} (hh : host.Steady shelf I)
    (opts : IncludeOptions) (path : Path) (text : Bytes) {s : σ} (hs : I s) :
    let g : IncludeGraph := ⟨shelf, opts, Path.absolute opts.cwd path, text⟩
    ∃ r s', (resolveText host opts path text).run.run s = (r, s') ∧
      ((∃ merged, r = .ok merged) ↔ g.Resolvable) ∧
      (∀ e, r = .error e ↔ ∃ trail, g.First g.root trail e) ∧
      (∀ e, r = .error e → ∃ fault, e.cause = .badInclude fault) ∧
      (∀ e chain, r = .error e → e.cause = .badInclude (.cycle chain) →
        ∃ p before, chain = before ++ [p] ∧ p ∈ before ∧ (∃ walk, before = g.file :: walk) ∧
          chain.IsChain g.Edge ∧ g.Reachable p ∧ Relation.TransGen g.Edge p p) := by
  intro g
  obtain ⟨r, hr, hjudged⟩ := IncludeGraph.expand_judged (g := g) hh opts.maxDepth g.root
    (Nat.add_comm 1 opts.maxDepth)
  have hmerged : ∃ r', Merge.Gives I (resolveText host opts path text) r' ∧ g.Judged g.root r' := by
    cases hjudged with
    | clean hnone => exact ⟨_, Merge.gives_bind_ok hr (Merge.runs_pure rfl), .clean hnone⟩
    | first hfirst => exact ⟨_, Merge.gives_bind_error hr, .first hfirst⟩
  obtain ⟨r', hr', hjudged'⟩ := hmerged
  obtain ⟨_, s', hrun, _, rfl⟩ := hr' s hs
  have herror := IncludeGraph.judged_error_iff hjudged'
  refine ⟨_, s', hrun, IncludeGraph.judged_resolvable_iff hjudged', herror, ?_, ?_⟩
  · intro e he
    obtain ⟨trail, hfirst⟩ := (herror e).1 he
    exact hfirst.offends.badInclude
  · intro e chain he hcause
    obtain ⟨trail, hfirst⟩ := (herror e).1 he
    exact hfirst.offends.cycle (IncludeGraph.sound_root g) hcause

/-- A host that answers from a shelf and keeps no notes. -/
def Shelf.host (shelf : Shelf) : Host (StateM Unit) where
  read p := pure (shelf.read p)
  present p := pure (shelf.present p)
  note _ := pure ()

theorem Shelf.steady_host (shelf : Shelf) : shelf.host.Steady shelf fun _ => True where
  read _ s _ := ⟨s, rfl, trivial⟩
  present _ s _ := ⟨s, rfl, trivial⟩
  note _ s _ := ⟨s, rfl, trivial⟩

/-- A file included on two branches: the graph can be resolved, and it is. -/
theorem resolveText_diamond :
    let shelf : Shelf :=
      { read := fun p =>
          if p = "/a" then .ok "#include \"/b\"" else if p = "/b" then .ok "b" else .error ⟨"open", p, .absent⟩
        present := fun _ => false }
    let opts : IncludeOptions := { cwd := "/" }
    let text : Bytes := "#include \"/a\" #include \"/b\""
    (∃ merged s', (resolveText shelf.host opts "/r" text).run.run () = (.ok merged, s')) ∧
      (⟨shelf, opts, Path.absolute "/" "/r", text⟩ : IncludeGraph).Resolvable := by
  intro shelf opts text
  have hok : ((resolveText shelf.host opts "/r" text).run.run ()).1.isOk = true := by decide +kernel
  obtain ⟨r, s', hrun, hiff, _⟩ :=
    resolveText_judges_graph shelf.steady_host opts "/r" text (s := ()) trivial
  rw [hrun] at hok ⊢
  cases r with
  | error e => cases hok
  | ok merged => exact ⟨⟨merged, s', rfl⟩, hiff.1 ⟨merged, rfl⟩⟩

end ShaderForge
