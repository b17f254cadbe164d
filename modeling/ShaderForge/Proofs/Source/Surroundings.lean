import ShaderForge.Source.Structure

/-!
# ShaderForge.Proofs.Source.Surroundings

A parse knows its surroundings by what they answer only. Whatever relates the answers of two hosts, and is kept by
putting computations together, relates a parse in the one to a parse in the other.

* `MergeRelation`           — such a relation, between computations of two monads.
* `MergeRelation.Hosts`     — hosts whose answers are related.
* `MergeRelation.rel_parse` — parses in such hosts are related, by the recursion of the parser.
-/

namespace ShaderForge

variable {m n : Type → Type} [Monad m] [Monad n]

/-- Relates computations of two monads that come to the same; `base` is for those that cannot fail. -/
structure MergeRelation (m n : Type → Type) [Monad m] [Monad n] where
  base : {α : Type} → m α → n α → Prop
  rel : {α : Type} → Merge m α → Merge n α → Prop
  base_pure : ∀ {α : Type} (a : α), base (pure a) (pure a)
  base_bind : ∀ {α β : Type} {x : m α} {y : n α} {f : α → m β} {g : α → n β},
    base x y → (∀ a, base (f a) (g a)) → base (x >>= f) (y >>= g)
  rel_lift : ∀ {α : Type} {x : m α} {y : n α}, base x y → rel (liftM x : Merge m α) (liftM y : Merge n α)
  rel_pure : ∀ {α : Type} (a : α), rel (pure a) (pure a)
  rel_throw : ∀ {α : Type} (e : ParseError), rel (throw e : Merge m α) (throw e)
  rel_bind : ∀ {α β : Type} {x : Merge m α} {y : Merge n α} {f : α → Merge m β} {g : α → Merge n β},
    rel x y → (∀ a, rel (f a) (g a)) → rel (x >>= f) (y >>= g)

namespace MergeRelation

/-- Merges that are related as the computations of their results are. -/
def ofBase (base : {α : Type} → m α → n α → Prop) (hpure : ∀ {α : Type} (a : α), base (pure a) (pure a))
    (hmap : ∀ {α β : Type} (f : α → β) {x : m α} {y : n α}, base x y → base (f <$> x) (f <$> y))
    (hbind : ∀ {α β : Type} {x : m α} {y : n α} {f : α → m β} {g : α → n β},
      base x y → (∀ a, base (f a) (g a)) → base (x >>= f) (y >>= g)) : MergeRelation m n where
  base := base
  rel x y := base x.run y.run
  base_pure := hpure
  base_bind := hbind
  rel_lift h := hmap Except.ok h
  rel_pure a := hpure (Except.ok a)
  rel_throw e := hpure (Except.error e)
  rel_bind h hfg := by
    rw [ExceptT.run_bind, ExceptT.run_bind]
    refine hbind h fun r => ?_
    cases r with
    | ok a => exact hfg a
    | error e => exact hpure _

/-- How a parse tells that a file cannot be read. -/
inductive ReadFault : (FileError → ParseError) → Prop
  | source (path : Path) : ReadFault fun e => ⟨path, 0, .unreadable e⟩
  | included (place : Location) (target : Bytes) :
      ReadFault fun e => ⟨place.file, place.line, .badInclude (.unreadable target e)⟩

/-- Hosts that answer alike. For a file that cannot be read they may have different reasons, if the relation allows for
that. -/
structure Hosts (R : MergeRelation m n) (host : Host m) (host' : Host n) : Prop where
  read : ∀ (p : Path) (fault : FileError → ParseError) {α : Type} {f : Bytes → Merge m α} {g : Bytes → Merge n α},
    ReadFault fault → (∀ text, R.rel (f text) (g text)) →
    R.rel
      (do
        match ← (liftM (host.read p) : Merge m _) with
        | .error e => throw (fault e)
        | .ok text => f text)
      (do
        match ← (liftM (host'.read p) : Merge n _) with
        | .error e => throw (fault e)
        | .ok text => g text)
  present : ∀ p, R.base (host.present p) (host'.present p)
  note : ∀ note, R.base (host.note note) (host'.note note)

variable {R : MergeRelation m n} {host : Host m} {host' : Host n}

theorem rel_read {p : Path} (hread : R.base (host.read p) (host'.read p)) (fault : FileError → ParseError) {α : Type}
    {f : Bytes → Merge m α} {g : Bytes → Merge n α} (hfg : ∀ text, R.rel (f text) (g text)) :
    R.rel
      (do
        match ← (liftM (host.read p) : Merge m _) with
        | .error e => throw (fault e)
        | .ok text => f text)
      (do
        match ← (liftM (host'.read p) : Merge n _) with
        | .error e => throw (fault e)
        | .ok text => g text) := by
  refine R.rel_bind (R.rel_lift hread) fun found => ?_
  cases found with
  | error e => exact R.rel_throw _
  | ok text => exact hfg text

theorem rel_foldlM {α β : Type} {f : β → α → Merge m β} {g : β → α → Merge n β} (h : ∀ b a, R.rel (f b a) (g b a))
    (l : List α) (b : β) : R.rel (l.foldlM f b) (l.foldlM g b) := by
  induction l generalizing b with
  | nil => exact R.rel_pure b
  | cons a l ih =>
    rw [List.foldlM_cons, List.foldlM_cons]
    exact R.rel_bind (h b a) ih

theorem rel_forM {α : Type} {f : α → Merge m PUnit} {g : α → Merge n PUnit} (h : ∀ a, R.rel (f a) (g a))
    (l : List α) : R.rel (l.forM f) (l.forM g) := by
  induction l with
  | nil => exact R.rel_pure _
  | cons a l ih => exact R.rel_bind (h a) fun _ => ih

theorem base_firstPresent (hh : R.Hosts host host') (ps : List Path) :
    R.base (firstPresent host ps) (firstPresent host' ps) := by
  induction ps with
  | nil => exact R.base_pure none
  | cons p ps ih =>
    refine R.base_bind (hh.present p) fun found => ?_
    cases found with
    | true => exact R.base_pure (some p)
    | false => exact ih

theorem base_locateTarget (hh : R.Hosts host host') (opts : IncludeOptions) (root target : Path) :
    R.base (locateTarget host opts root target) (locateTarget host' opts root target) := by
  unfold locateTarget
  split
  · exact R.base_pure _
  · refine R.base_bind (base_firstPresent hh _) fun found => ?_
    cases found with
    | none => exact R.base_pure _
    | some p => exact R.base_pure _

theorem rel_fetch (hh : R.Hosts host host') (opts : IncludeOptions) (root : Path) (chain : List Path)
    (place : Location) (target : Bytes) :
    R.rel (fetch host opts root chain place target) (fetch host' opts root chain place target) := by
  unfold fetch
  refine R.rel_bind (R.rel_lift (base_locateTarget hh opts root target)) fun path => ?_
  split
  · exact R.rel_throw _
  · refine hh.read path _ (.included place target) fun text => ?_
    exact R.rel_bind (R.rel_lift (hh.note _)) fun _ => R.rel_pure _

theorem rel_expandLines {follow : Location → Bytes → Merge m (List MergedLine)}
    {follow' : Location → Bytes → Merge n (List MergedLine)}
    (h : ∀ place target, R.rel (follow place target) (follow' place target)) (file : Path) (number : Nat)
    (lines : List Bytes) : R.rel (expandLines follow file number lines) (expandLines follow' file number lines) := by
  induction lines generalizing number with
  | nil => exact R.rel_pure _
  | cons line lines ih =>
    rw [expandLines, expandLines]
    refine R.rel_bind ?_ fun first => R.rel_bind (ih _) fun rest => R.rel_pure _
    unfold expandLine
    refine R.rel_bind (rel_foldlM (fun acc d => ?_) _ _) fun last => R.rel_pure _
    exact R.rel_bind (h _ _) fun ls => R.rel_pure _

theorem rel_expand (hh : R.Hosts host host') (opts : IncludeOptions) (root : Path) (budget : Nat) (chain : List Path)
    (file : Path) (text : Bytes) :
    R.rel (expand host opts root budget chain file text) (expand host' opts root budget chain file text) := by
  induction budget generalizing chain file text with
  | zero =>
    rw [expand, expand]
    exact rel_expandLines (fun place target => R.rel_throw _) _ _ _
  | succ budget ih =>
    rw [expand, expand]
    exact rel_expandLines (fun place target =>
      R.rel_bind (rel_fetch hh opts root chain place target) fun found => ih _ _ _) _ _ _

theorem rel_resolve (hh : R.Hosts host host') (opts : IncludeOptions) (path : Path) :
    R.rel (resolve host opts path) (resolve host' opts path) := by
  unfold resolve
  refine hh.read _ _ (.source path) fun text => ?_
  exact R.rel_bind (rel_expand hh opts _ _ _ _ _) fun ls => R.rel_pure _

theorem rel_parse (hh : R.Hosts host host') (opts : ParseOptions) (path : Path) :
    R.rel (parse host opts path) (parse host' opts path) := by
  refine R.rel_bind (rel_resolve hh _ path) fun merged => ?_
  unfold recover
  cases Scene.read opts.strict merged with
  | mk notes result =>
    refine R.rel_bind (rel_forM (fun note => R.rel_lift (hh.note note)) notes) fun _ => ?_
    cases result with
    | error e => exact R.rel_throw e
    | ok r => exact R.rel_pure r

end MergeRelation

end ShaderForge
