import Mathlib.Logic.Function.Basic
import Mathlib.Logic.Relation
import ShaderForge.Proofs.Pipeline.Atomic

/-!
# ShaderForge.Proofs.Pipeline.WriteCalls

Writing a file in single calls to the file tree, between which others may make calls of their own.

* `Writing`             — a computation that stops at each call; `FileCalls.writing`.
* `writeCalls`          — the calls of `writeWhole`.
* `perform_writeWhole`  — all of them at one stroke are `writeWhole` in the world.
* `Writing.Safe`        — what a writing may do and what comes of it, if the others keep to what it relies on.
* `Crew`, `Crew.Step`   — several writings that take turns in any order.
* `Crew.Safe.reaches`   — writings that rely on no more than the others keep to are safe together.
-/

namespace ShaderForge

/-! ## Computations in pieces -/

inductive DiskCall where
  | stat (p : Path)
  | lstat (p : Path)
  | mkdir (p : Path)
  | createTemp (dir : Path) (pattern : Bytes)
  | store (p : Path) (data : Bytes)
  | rename (old new : Path)
  | remove (p : Path)

namespace DiskCall

def Answer : DiskCall → Type
  | stat _ | lstat _ => Except FileError Node
  | createTemp _ _ => Except FileError Path
  | mkdir _ | store _ _ | rename _ _ | remove _ => Except FileError Unit

/-- A change that fails leaves the tree as it was. -/
def changed (d : Disk) : Except FileError Disk → Except FileError Unit × Disk
  | .ok d' => (.ok (), d')
  | .error e => (.error e, d)

def run (d : Disk) : (c : DiskCall) → c.Answer × Disk
  | stat p => (d.stat p, d)
  | lstat p => (d.lstat p, d)
  | mkdir p => changed d (d.mkdir p)
  | createTemp dir pattern =>
    match d.createTemp dir pattern with
    | .ok (temp, d') => (.ok temp, d')
    | .error e => (.error e, d)
  | store p data => changed d (d.store p data)
  | rename old new => changed d (d.rename old new)
  | remove p => changed d (d.remove p)

end DiskCall

/-- A computation that stops at each call to the file tree. -/
inductive Writing (α : Type) where
  | done (a : α)
  | call (c : DiskCall) (next : c.Answer → Writing α)

namespace Writing

variable {α β : Type}

protected def bind : Writing α → (α → Writing β) → Writing β
  | done a, f => f a
  | call c next, f => call c fun answer => (next answer).bind f

instance : Monad Writing where
  pure := done
  bind := Writing.bind

theorem bind_assoc {γ : Type} (x : Writing α) (f : α → Writing β) (g : β → Writing γ) :
    x >>= f >>= g = x >>= fun a => f a >>= g := by
  induction x with
  | done a => rfl
  | call c next ih => exact congrArg (call c) (funext ih)

theorem run_lift {ε : Type} (cause : ε → CompileCause) (x : Writing (Except ε α)) :
    (Step.lift cause x).run = x >>= fun r => done (r.mapError cause) := by
  induction x with
  | done r => cases r <;> rfl
  | call c next ih => exact congrArg (call c) (funext ih)

def perform : Writing α → Disk → α × Disk
  | done a, d => (a, d)
  | call c next, d => (next (c.run d).1).perform (c.run d).2

theorem perform_bind (x : Writing α) (f : α → Writing β) (d : Disk) :
    (x >>= f).perform d = (f (x.perform d).1).perform (x.perform d).2 := by
  induction x generalizing d with
  | done a => rfl
  | call c next ih => exact ih _ _

end Writing

/-! ## Making directories -/

/-- A directory that cannot be made may have been made by others since it was looked for. -/
def lookAgain (e : FileError) : Except FileError Node → Writing (Except FileError Unit)
  | .ok .directory => .done (.ok ())
  | _ => .done (.error e)

def madeOrSeen (p : Path) : Except FileError Unit → Writing (Except FileError Unit)
  | .ok () => .done (.ok ())
  | .error e => .call (.lstat p) (lookAgain e)

def makeInside (p : Path) : Except FileError Unit → Writing (Except FileError Unit)
  | .ok () => .call (.mkdir p) (madeOrSeen p)
  | .error e => .done (.error e)

def seenOrMake (p : Path) (outer : Writing (Except FileError Unit)) :
    Except FileError Node → Writing (Except FileError Unit)
  | .ok .directory => .done (.ok ())
  | .ok _ => .done (.error ⟨"mkdir", p, .notDirectory⟩)
  | .error _ => outer >>= makeInside p

/-- The calls that make the directories of a list, the last one first. -/
def ensureCalls : List Path → Writing (Except FileError Unit)
  | [] => .done (.ok ())
  | p :: outer => .call (.stat p) (seenOrMake p (ensureCalls outer))

theorem perform_ensureCalls (paths : List Path) (d : Disk) :
    (ensureCalls paths).perform d = ((Disk.ensure paths d).2, (Disk.ensure paths d).1) := by
  induction paths with
  | nil => rfl
  | cons p outer ih =>
    show (seenOrMake p (ensureCalls outer) (d.stat p)).perform d = _
    rw [Disk.ensure]
    cases d.stat p with
    | ok n => cases n <;> rfl
    | error e =>
      dsimp only [seenOrMake]
      rw [Writing.perform_bind, ih]
      generalize Disk.ensure outer d = tried
      obtain ⟨d₁, outcome⟩ := tried
      cases outcome with
      | error e => rfl
      | ok _ =>
        show (madeOrSeen p (DiskCall.changed d₁ (d₁.mkdir p)).1).perform (DiskCall.changed d₁ (d₁.mkdir p)).2 = _
        dsimp only
        cases d₁.mkdir p with
        | ok d₂ => rfl
        | error e =>
          show (lookAgain e (d₁.lstat p)).perform d₁ = _
          dsimp only
          cases d₁.lstat p with
          | error e' => rfl
          | ok n => cases n <;> rfl

/-! ## Writing a file -/

def FileCalls.writing : FileCalls Writing where
  mkdirAll dir := ensureCalls (dir :: (Disk.parentsFrom [] dir).reverse)
  createTemp dir pattern := .call (.createTemp dir pattern) .done
  store p data := .call (.store p data) .done
  rename old new := .call (.rename old new) .done
  remove p := .call (.remove p) .done

def dropTemp (temp : Path) (r : Except CompileCause Unit) : Writing (Except CompileCause Unit) :=
  .call (.remove temp) fun _ => .done r

def moveTemp (temp path : Path) : Except FileError Unit → Writing (Except CompileCause Unit)
  | .ok () => .call (.rename temp path) fun r => dropTemp temp (r.mapError .outputWrite)
  | .error e => dropTemp temp (.error (.outputWrite e))

def fillTemp (path : Path) (data : Bytes) : Except FileError Path → Writing (Except CompileCause Unit)
  | .ok temp => .call (.store temp data) (moveTemp temp path)
  | .error e => .done (.error (.outputFile e))

def openTemp (path : Path) (data : Bytes) : Except FileError Unit → Writing (Except CompileCause Unit)
  | .ok () => .call (.createTemp (Path.dir path) (outputPattern path)) (fillTemp path data)
  | .error e => .done (.error (.outputDirectory e))

def writeCalls (path : Path) (data : Bytes) : Writing (Except CompileCause Unit) :=
  ensureCalls (Path.dir path :: (Disk.parentsFrom [] (Path.dir path)).reverse) >>= openTemp path data

theorem run_writeWhole_writing (path : Path) (data : Bytes) :
    (writeWhole FileCalls.writing path data).run = writeCalls path data := by
  unfold writeWhole writeCalls
  rw [ExceptT.run_bind, Writing.run_lift, Writing.bind_assoc]
  refine bind_congr fun made => ?_
  cases made with
  | error e => rfl
  | ok _ =>
    refine congrArg (Writing.call _) (funext fun created => ?_)
    cases created with
    | error e => rfl
    | ok temp =>
      refine congrArg (Writing.call _) (funext fun stored => ?_)
      cases stored with
      | error e => rfl
      | ok _ =>
        refine congrArg (Writing.call _) (funext fun renamed => ?_)
        cases renamed <;> rfl

theorem run_perform_eq (change : Disk → Except FileError Disk) (w : World) : (Action.perform change).run w =
    ((DiskCall.changed w.disk (change w.disk)).1, { w with disk := (DiskCall.changed w.disk (change w.disk)).2 }) := by
  rw [Action.run_perform]
  cases change w.disk <;> rfl

theorem perform_writeWhole (path : Path) (data : Bytes) (w : World) :
    (writeWhole FileCalls.world path data).run.run w =
      (((writeWhole FileCalls.writing path data).run.perform w.disk).1,
        { w with disk := ((writeWhole FileCalls.writing path data).run.perform w.disk).2 }) := by
  rw [run_writeWhole_writing, writeCalls, Writing.perform_bind, perform_ensureCalls]
  unfold writeWhole
  rw [Step.run_bind, Step.run_lift]
  have hmkdir : (FileCalls.world.mkdirAll (Path.dir path)).run w = ((w.disk.mkdirAll (Path.dir path)).2,
    { w with disk := (w.disk.mkdirAll (Path.dir path)).1 }) := rfl
  rw [hmkdir, Disk.mkdirAll]
  generalize Disk.ensure (Path.dir path :: (Disk.parentsFrom [] (Path.dir path)).reverse) w.disk = tried
  obtain ⟨d, outcome⟩ := tried
  cases outcome with
  | error e => rfl
  | ok _ =>
  dsimp only [FileCalls.world]
  rw [Step.run_bind, Step.run_lift, Action.run_performWith]
  have hcreate : (openTemp path data (.ok ())).perform d = match d.createTemp (Path.dir path) (outputPattern path) with
      | .ok (temp, d₁) => (Writing.call (.store temp data) (moveTemp temp path)).perform d₁
      | .error e => (.error (.outputFile e), d) := by
    show (fillTemp path data (DiskCall.run d (.createTemp (Path.dir path) (outputPattern path))).1).perform
      (DiskCall.run d (.createTemp (Path.dir path) (outputPattern path))).2 = _
    unfold DiskCall.run
    dsimp only
    cases d.createTemp (Path.dir path) (outputPattern path) <;> rfl
  rw [hcreate]
  cases d.createTemp (Path.dir path) (outputPattern path) with
  | error e => rfl
  | ok made =>
  obtain ⟨temp, d₁⟩ := made
  dsimp only
  rw [Step.run_ensuring]
  show (_, Prod.snd ((Action.perform fun d => d.remove temp).run _)) = _
  rw [run_perform_eq, Step.run_bind, Step.run_lift, run_perform_eq]
  have hstore : (Writing.call (.store temp data) (moveTemp temp path)).perform d₁ =
    (moveTemp temp path (DiskCall.changed d₁ (d₁.store temp data)).1).perform
      (DiskCall.changed d₁ (d₁.store temp data)).2 := rfl
  rw [hstore]
  dsimp only
  generalize DiskCall.changed d₁ (d₁.store temp data) = stored
  obtain ⟨outcome, d₂⟩ := stored
  cases outcome with
  | error e => rfl
  | ok _ =>
  dsimp only
  rw [Step.run_lift, run_perform_eq]
  have hrename : (moveTemp temp path (.ok ())).perform d₂ =
    (dropTemp temp ((DiskCall.changed d₂ (d₂.rename temp path)).1.mapError .outputWrite)).perform
      (DiskCall.changed d₂ (d₂.rename temp path)).2 := rfl
  rw [hrename]
  dsimp only
  generalize DiskCall.changed d₂ (d₂.rename temp path) = renamed
  obtain ⟨outcome, d₃⟩ := renamed
  cases outcome <;> rfl

/-! ## Writings that take turns -/

section Safe

variable {α β : Type} {rely guar : Disk → Disk → Prop}

/-- Whatever the others do within `rely`, each call of the writing keeps to `guar`, and what comes of it meets `post`. -/
inductive Writing.Safe (rely guar : Disk → Disk → Prop) (post : α → Disk → Prop) : Writing α → Disk → Prop
  | done {a : α} {d : Disk} (h : ∀ d', rely d d' → post a d') : Safe rely guar post (.done a) d
  | call {c : DiskCall} {next : c.Answer → Writing α} {d : Disk} (hguar : ∀ d', rely d d' → guar d' (c.run d').2)
      (hnext : ∀ d', rely d d' → Safe rely guar post (next (c.run d').1) (c.run d').2) :
      Safe rely guar post (.call c next) d

namespace Writing.Safe

variable {post : α → Disk → Prop} {x : Writing α} {d d' : Disk}

theorem mono (htrans : ∀ {a b c}, rely a b → rely b c → rely a c) (h : x.Safe rely guar post d) (hd : rely d d') :
    x.Safe rely guar post d' := by
  cases h with
  | done h => exact .done fun d'' hd' => h d'' (htrans hd hd')
  | call hguar hnext => exact .call (fun d'' hd' => hguar d'' (htrans hd hd')) fun d'' hd' => hnext d'' (htrans hd hd')

theorem bind (hrefl : ∀ d, rely d d) {f : α → Writing β} {after : β → Disk → Prop} (h : x.Safe rely guar post d)
    (hf : ∀ a d', post a d' → (f a).Safe rely guar after d') : (x >>= f).Safe rely guar after d := by
  induction h with
  | done h => exact hf _ _ (h _ (hrefl _))
  | call hguar _ ih => exact .call hguar ih

theorem perform (hrefl : ∀ d, rely d d) (h : x.Safe rely guar post d) : post (x.perform d).1 (x.perform d).2 := by
  induction h with
  | done h => exact h _ (hrefl _)
  | call _ _ ih => exact ih _ (hrefl _)

end Writing.Safe

/-- Writings in one tree. -/
structure Crew (ι α : Type) where
  disk : Disk
  task : ι → Writing α

namespace Crew

variable {ι : Type} {rely guar : ι → Disk → Disk → Prop} {post : ι → α → Disk → Prop} {b b' : Crew ι α}

def Safe (rely guar : ι → Disk → Disk → Prop) (post : ι → α → Disk → Prop) (b : Crew ι α) : Prop :=
  ∀ k, (b.task k).Safe (rely k) (guar k) (post k) b.disk

theorem Safe.outcome (hrefl : ∀ k d, rely k d d) (h : b.Safe rely guar post) {k : ι} {a : α} (hk : b.task k = .done a) :
    post k a b.disk := by
  have hsafe := h k
  rw [hk] at hsafe
  cases hsafe with
  | done hpost => exact hpost _ (hrefl _ _)

variable [DecidableEq ι]

/-- One call of one writing. -/
inductive Step : Crew ι α → Crew ι α → Prop
  | call {b : Crew ι α} {k : ι} {c : DiskCall} {next : c.Answer → Writing α} (h : b.task k = .call c next) :
      Step b { disk := (c.run b.disk).2, task := Function.update b.task k (next (c.run b.disk).1) }

/-- Reached in any order of calls. -/
abbrev Reaches : Crew ι α → Crew ι α → Prop := Relation.ReflTransGen Step

theorem reaches_perform (b : Crew ι α) (k : ι) :
    b.Reaches ⟨((b.task k).perform b.disk).2, Function.update b.task k (.done ((b.task k).perform b.disk).1)⟩ := by
  generalize hk : b.task k = x
  induction x generalizing b with
  | done a =>
    have hself : Function.update b.task k (.done a) = b.task := Function.update_eq_self_iff.2 hk.symm
    show b.Reaches ⟨b.disk, Function.update b.task k (.done a)⟩
    rw [hself]
  | call c next ih =>
    have hrest := ih (c.run b.disk).1 ⟨(c.run b.disk).2, Function.update b.task k (next (c.run b.disk).1)⟩
      (Function.update_self ..)
    rw [Function.update_idem] at hrest
    exact .head (.call hk) hrest

theorem Reaches.done {k : ι} {a : α} (h : b.Reaches b') (hk : b.task k = .done a) : b'.task k = .done a := by
  induction h with
  | refl => exact hk
  | tail _ hstep ih =>
    cases hstep with
    | @call i c next hi =>
      have hne : k ≠ i := by
        rintro rfl
        cases ih.symm.trans hi
      exact (Function.update_of_ne hne _ _).trans ih

theorem exists_done (b : Crew ι α) (l : List ι) : ∃ b', b.Reaches b' ∧ ∀ k ∈ l, ∃ a, b'.task k = .done a := by
  induction l generalizing b with
  | nil => exact ⟨b, .refl, by simp⟩
  | cons k l ih =>
    obtain ⟨b', hreach, hdone⟩ := ih ⟨_, Function.update b.task k (.done ((b.task k).perform b.disk).1)⟩
    have hk : b'.task k = .done ((b.task k).perform b.disk).1 := Reaches.done hreach (Function.update_self ..)
    exact ⟨b', (b.reaches_perform k).trans hreach, List.forall_mem_cons.2 ⟨⟨_, hk⟩, hdone⟩⟩

theorem Safe.step (hrefl : ∀ k d, rely k d d) (htrans : ∀ k {a b c}, rely k a b → rely k b c → rely k a c)
    (hkeeps : ∀ k i, i ≠ k → ∀ {d d'}, guar k d d' → rely i d d') (h : b.Safe rely guar post) (hstep : b.Step b') :
    b'.Safe rely guar post := by
  cases hstep with
  | @call k c next hk =>
    have hsafe := h k
    rw [hk] at hsafe
    cases hsafe with
    | call hguar hnext =>
      intro i
      dsimp only
      by_cases hi : i = k
      · subst hi
        rw [Function.update_self]
        exact hnext _ (hrefl _ _)
      · rw [Function.update_of_ne hi]
        exact (h i).mono (htrans i) (hkeeps k i hi (hguar _ (hrefl _ _)))

theorem Safe.reaches (hrefl : ∀ k d, rely k d d) (htrans : ∀ k {a b c}, rely k a b → rely k b c → rely k a c)
    (hkeeps : ∀ k i, i ≠ k → ∀ {d d'}, guar k d d' → rely i d d') (h : b.Safe rely guar post) (hreach : b.Reaches b') :
    b'.Safe rely guar post := by
  induction hreach with
  | refl => exact h
  | tail _ hstep ih => exact ih.step hrefl htrans hkeeps hstep

end Crew

end Safe

end ShaderForge
