import Mathlib.Data.List.Chain
import Mathlib.Data.List.Nodup
import ShaderForge.Source.Include

/-!
# ShaderForge.Proofs.Source.IncludeGraph

The graph of includes and the walks that merging takes through it.

Nodes are paths. A path has one edge per directive of its text, to the path that the directive names. The
text of the root is given; every other text comes from the shelf.

* `IncludeGraph.Edge`, `IncludeGraph.Resolvable` — the graph, and what is asked of it.
* `IncludeGraph.follow`  — one directive followed from the end of a walk, or why it cannot be.
* `IncludeGraph.Offends` — a directive that cannot be followed, by its trail of directive numbers.
* `IncludeGraph.resolvable_iff` — the graph is as asked if and only if no directive offends.
-/

namespace ShaderForge

/-- What is asked of the surroundings when it is the same at every time. -/
structure Shelf where
  read : Path → Except FileError Bytes
  present : Path → Bool

/-- The directives of lines numbered from `number`: line and target, in order. -/
def directivesFrom (number : Nat) : List Bytes → List (Nat × Bytes)
  | [] => []
  | line :: lines =>
    (cutDirectives line).2.map (fun d => (number, d.1)) ++ directivesFrom (number + 1) lines

def directives (text : Bytes) : List (Nat × Bytes) := directivesFrom 1 (Bytes.lines text)

/-- All that a merge depends on. -/
structure IncludeGraph where
  shelf : Shelf
  opts : IncludeOptions
  file : Path
  text : Bytes

namespace IncludeGraph

def target (g : IncludeGraph) (name : Bytes) : Path :=
  if Path.isAbsolute name then Path.clean name
  else
    let candidates := (Path.dir g.file :: g.opts.includeDirs).map fun dir =>
      Path.absolute g.opts.cwd (Path.join dir name)
    (candidates.find? g.shelf.present).getD (Path.clean (Path.join (Path.dir g.file) name))

def textOf (g : IncludeGraph) (p : Path) : Option Bytes :=
  if p = g.file then some g.text else (g.shelf.read p).toOption

/-- A directive of `p` names `q`. -/
def Edge (g : IncludeGraph) (p q : Path) : Prop :=
  ∃ text d, g.textOf p = some text ∧ d ∈ directives text ∧ g.target d.2 = q

/-- A node that a walk from the root comes to. -/
def Reachable (g : IncludeGraph) (p : Path) : Prop := Relation.ReflTransGen g.Edge g.file p

/-- Everything reachable can be read, nothing reachable lies on a cycle, and no walk is too long. -/
structure Resolvable (g : IncludeGraph) : Prop where
  readable : ∀ p, g.Reachable p → p ≠ g.file → ∃ text, g.shelf.read p = .ok text
  acyclic : ∀ p, g.Reachable p → ¬ Relation.TransGen g.Edge p p
  shallow : ∀ walk, (g.file :: walk).IsChain g.Edge → walk.length ≤ g.opts.maxDepth

/-- The end of a walk: the files on the way, the root first, and the text of the last of them. -/
structure Frame where
  chain : List Path
  file : Path
  text : Bytes

def root (g : IncludeGraph) : Frame := ⟨[g.file], g.file, g.text⟩

/-- One directive followed from the end of a walk, or why it cannot be. -/
def follow (g : IncludeGraph) (fr : Frame) (d : Nat × Bytes) : Except IncludeFault Frame :=
  if g.opts.maxDepth < fr.chain.length then .error (.tooDeep d.2 g.opts.maxDepth)
  else if g.target d.2 ∈ fr.chain then .error (.cycle (fr.chain ++ [g.target d.2]))
  else match g.shelf.read (g.target d.2) with
    | .error e => .error (.unreadable d.2 e)
    | .ok text => .ok ⟨fr.chain ++ [g.target d.2], g.target d.2, text⟩

/-- Behind the directives that the trail numbers, one after another, stands one that cannot be followed. -/
inductive Offends (g : IncludeGraph) : Frame → List Nat → ParseError → Prop
  | here {fr : Frame} {i : Nat} {d : Nat × Bytes} {fault : IncludeFault}
      (hd : (directives fr.text)[i]? = some d) (hf : g.follow fr d = .error fault) :
      Offends g fr [i] ⟨fr.file, d.1, .badInclude fault⟩
  | deeper {fr fr' : Frame} {i : Nat} {d : Nat × Bytes} {trail : List Nat} {e : ParseError}
      (hd : (directives fr.text)[i]? = some d) (hf : g.follow fr d = .ok fr')
      (ht : Offends g fr' trail e) : Offends g fr (i :: trail) e

/-- The first offence from a frame on: depth first and from left to right, trails come in lexicographic
order. -/
structure First (g : IncludeGraph) (fr : Frame) (trail : List Nat) (e : ParseError) : Prop where
  offends : g.Offends fr trail e
  least : ∀ trail' e', g.Offends fr trail' e' → trail' ≠ trail → List.Lex (· < ·) trail trail'

/-! ## Following one directive -/

/-- A frame that lies at the end of a walk from the root without repetition. -/
structure Sound (g : IncludeGraph) (fr : Frame) : Prop where
  head : ∃ walk, fr.chain = g.file :: walk
  walk : fr.chain.IsChain g.Edge
  nodup : fr.chain.Nodup
  last : fr.chain.getLast? = some fr.file
  text : g.textOf fr.file = some fr.text

variable {g : IncludeGraph} {fr fr' : Frame} {d : Nat × Bytes}

theorem sound_root (g : IncludeGraph) : g.Sound g.root where
  head := ⟨[], rfl⟩
  walk := .singleton _
  nodup := List.nodup_singleton _
  last := rfl
  text := if_pos rfl

theorem follow_eq_ok (h : g.follow fr d = .ok fr') :
    fr.chain.length ≤ g.opts.maxDepth ∧ g.target d.2 ∉ fr.chain ∧
      ∃ text, g.shelf.read (g.target d.2) = .ok text ∧
        fr' = ⟨fr.chain ++ [g.target d.2], g.target d.2, text⟩ := by
  unfold follow at h
  split at h
  · cases h
  split at h
  · cases h
  split at h
  · cases h
  · cases h
    exact ⟨by omega, by assumption, _, by assumption, rfl⟩

theorem Sound.edge (hs : g.Sound fr) (hd : d ∈ directives fr.text) : g.Edge fr.file (g.target d.2) :=
  ⟨fr.text, d, hs.text, hd, rfl⟩

theorem Sound.walk_target (hs : g.Sound fr) (hd : d ∈ directives fr.text) :
    (fr.chain ++ [g.target d.2]).IsChain g.Edge := by
  refine List.isChain_append.2 ⟨hs.walk, .singleton _, ?_⟩
  intro p hp q hq
  rw [hs.last] at hp
  cases hp
  cases hq
  exact hs.edge hd

theorem Sound.mem_root (hs : g.Sound fr) : g.file ∈ fr.chain := by
  obtain ⟨walk, hwalk⟩ := hs.head
  rw [hwalk]
  exact List.mem_cons_self

theorem Sound.follow (hs : g.Sound fr) (hd : d ∈ directives fr.text) (h : g.follow fr d = .ok fr') :
    g.Sound fr' := by
  obtain ⟨_, hnew, text, htext, rfl⟩ := follow_eq_ok h
  obtain ⟨walk, hwalk⟩ := hs.head
  refine ⟨⟨walk ++ [g.target d.2], by rw [hwalk, List.cons_append]⟩, hs.walk_target hd, ?_, by simp, ?_⟩
  · exact List.nodup_append.2 ⟨hs.nodup, List.nodup_singleton _, by
      intro p hp q hq
      obtain rfl := List.mem_singleton.1 hq
      rintro rfl
      exact hnew hp⟩
  · have hroot : g.target d.2 ≠ g.file := by
      intro heq
      exact hnew (heq ▸ hs.mem_root)
    rw [textOf, if_neg hroot, htext]
    rfl

theorem isChain_reachable {p q : Path} {l : List Path} (h : (p :: l).IsChain g.Edge) (hq : q ∈ p :: l) :
    Relation.ReflTransGen g.Edge p q := by
  induction l generalizing p with
  | nil =>
    obtain rfl := List.mem_singleton.1 hq
    exact .refl
  | cons r l ih =>
    obtain ⟨hpr, hrl⟩ := List.isChain_cons_cons.1 h
    rcases List.mem_cons.1 hq with rfl | hq
    · exact .refl
    · exact .head hpr (ih hrl hq)

theorem Sound.reachable (hs : g.Sound fr) {p : Path} (hp : p ∈ fr.chain) : g.Reachable p := by
  obtain ⟨walk, hwalk⟩ := hs.head
  have hchain := hs.walk
  rw [hwalk] at hp hchain
  exact isChain_reachable hchain hp

theorem Sound.cycle (hs : g.Sound fr) (hd : d ∈ directives fr.text) (hmem : g.target d.2 ∈ fr.chain) :
    Relation.TransGen g.Edge (g.target d.2) (g.target d.2) := by
  obtain ⟨before, after, hsplit⟩ := List.append_of_mem hmem
  have hchain := hs.walk
  rw [hsplit] at hchain
  have hlast : fr.file ∈ g.target d.2 :: after := by
    have h := hs.last
    rw [hsplit, List.getLast?_append_cons] at h
    exact List.mem_of_getLast? h
  exact .tail' (isChain_reachable hchain.right_of_append hlast) (hs.edge hd)

/-! ## Offences against the graph -/

/-- A directive that cannot be followed shows that the graph is not as asked. -/
theorem Sound.not_resolvable (hs : g.Sound fr) (hd : d ∈ directives fr.text) {fault : IncludeFault}
    (h : g.follow fr d = .error fault) : ¬ g.Resolvable := by
  intro hg
  obtain ⟨walk, hwalk⟩ := hs.head
  have hlonger := hs.walk_target hd
  unfold IncludeGraph.follow at h
  split at h
  · rename_i hdeep
    rw [hwalk, List.cons_append] at hlonger
    have hle := hg.shallow _ hlonger
    rw [hwalk] at hdeep
    simp only [List.length_append, List.length_cons, List.length_nil] at hle hdeep
    omega
  split at h
  · rename_i hmem
    exact hg.acyclic _ (hs.reachable hmem) (hs.cycle hd hmem)
  split at h
  · rename_i hnew _ e hread
    have hroot : g.target d.2 ≠ g.file := by
      intro heq
      exact hnew (heq ▸ hs.mem_root)
    have hreach : g.Reachable (g.target d.2) :=
      (hs.reachable (List.mem_of_getLast? hs.last)).tail (hs.edge hd)
    obtain ⟨text, htext⟩ := hg.readable _ hreach hroot
    rw [hread] at htext
    cases htext
  · cases h

theorem Offends.not_resolvable {trail : List Nat} {e : ParseError} (h : g.Offends fr trail e)
    (hs : g.Sound fr) : ¬ g.Resolvable := by
  induction h with
  | here hd hf => exact hs.not_resolvable (List.mem_of_getElem? hd) hf
  | deeper hd hf _ ih => exact ih (hs.follow (List.mem_of_getElem? hd) hf)

/-- What is reported as a cycle is one: a walk from the root that comes back to one of its nodes. -/
theorem Offends.cycle {trail : List Nat} {e : ParseError} (h : g.Offends fr trail e)
    (hs : g.Sound fr) {chain : List Path} (he : e.cause = .badInclude (.cycle chain)) :
    ∃ p before, chain = before ++ [p] ∧ p ∈ before ∧ (∃ walk, before = g.file :: walk) ∧
      chain.IsChain g.Edge ∧ g.Reachable p ∧ Relation.TransGen g.Edge p p := by
  induction h with
  | @here fr i d fault hd hf =>
    cases he
    have hmem := List.mem_of_getElem? hd
    unfold follow at hf
    split at hf
    · cases hf
    split at hf
    · rename_i hin
      cases hf
      exact ⟨_, fr.chain, rfl, hin, hs.head, hs.walk_target hmem, hs.reachable hin, hs.cycle hmem hin⟩
    split at hf <;> cases hf
  | deeper hd hf _ ih => exact ih (hs.follow (List.mem_of_getElem? hd) hf) he

theorem Offends.badInclude {trail : List Nat} {e : ParseError} (h : g.Offends fr trail e) :
    ∃ fault, e.cause = .badInclude fault := by
  induction h with
  | here hd hf => exact ⟨_, rfl⟩
  | deeper _ _ _ ih => exact ih

/-! ## Walks without offence -/

theorem follow_of_no_offence (h : ∀ trail e, ¬ g.Offends fr trail e) (hd : d ∈ directives fr.text) :
    ∃ fr', g.follow fr d = .ok fr' ∧ ∀ trail e, ¬ g.Offends fr' trail e := by
  obtain ⟨i, hi⟩ := List.getElem?_of_mem hd
  cases hf : g.follow fr d with
  | error fault => exact absurd (.here hi hf) (h _ _)
  | ok fr' => exact ⟨fr', rfl, fun trail e ho => h _ _ (.deeper hi hf ho)⟩

theorem exists_frame_of_walk (hs : g.Sound fr) (h : ∀ trail e, ¬ g.Offends fr trail e)
    {walk : List Path} (hwalk : (fr.file :: walk).IsChain g.Edge) :
    ∃ fr', g.Sound fr' ∧ fr'.chain = fr.chain ++ walk ∧
      (walk ≠ [] → fr'.chain.length ≤ g.opts.maxDepth + 1) := by
  induction walk generalizing fr with
  | nil => exact ⟨fr, hs, by simp, fun hne => absurd rfl hne⟩
  | cons q walk ih =>
    obtain ⟨⟨text, d, htext, hd, hq⟩, hrest⟩ := List.isChain_cons_cons.1 hwalk
    rw [hs.text] at htext
    cases htext
    obtain ⟨fr1, hf, hclean⟩ := follow_of_no_offence h hd
    have hs1 := hs.follow hd hf
    obtain ⟨hle, _, text, _, rfl⟩ := follow_eq_ok hf
    rw [hq] at hs1 hclean
    obtain ⟨fr', hs', hchain, hlen⟩ := ih hs1 hclean hrest
    refine ⟨fr', hs', by rw [hchain, List.append_assoc]; rfl, fun _ => ?_⟩
    by_cases hnil : walk = []
    · rw [hchain, hnil]
      simp only [List.append_nil, List.length_append, List.length_cons, List.length_nil]
      omega
    · exact hlen hnil

theorem resolvable_of_no_offence (h : ∀ trail e, ¬ g.Offends g.root trail e) : g.Resolvable where
  readable p hp hne := by
    obtain ⟨walk, hwalk, hlast⟩ := List.exists_isChain_cons_of_relationReflTransGen hp
    obtain ⟨fr, hs, hchain, _⟩ := exists_frame_of_walk (sound_root g) h hwalk
    have hfile : fr.file = p := by
      have hl := hs.last
      rw [hchain, show g.root.chain ++ walk = g.file :: walk from rfl,
        List.getLast?_eq_some_getLast (List.cons_ne_nil _ _), hlast] at hl
      exact (Option.some.inj hl).symm
    have htext := hs.text
    rw [hfile, textOf, if_neg hne] at htext
    cases hread : g.shelf.read p with
    | ok text => exact ⟨text, rfl⟩
    | error e =>
      rw [hread] at htext
      cases htext
  acyclic p hp hcycle := by
    -- the walk to `p` and once around the cycle would pass `p` twice
    obtain ⟨q, hpq, hqp⟩ := Relation.TransGen.head'_iff.1 hcycle
    obtain ⟨walk, hwalk, hlast⟩ := List.exists_isChain_cons_of_relationReflTransGen hp
    obtain ⟨round, hround, hback⟩ := List.exists_isChain_cons_of_relationReflTransGen hqp
    have hboth : (g.file :: (walk ++ q :: round)).IsChain g.Edge := by
      rw [← List.cons_append]
      refine List.isChain_append.2 ⟨hwalk, hround, ?_⟩
      intro a ha b hb
      rw [List.getLast?_eq_some_getLast (List.cons_ne_nil _ _), hlast] at ha
      cases ha
      cases hb
      exact hpq
    obtain ⟨fr, hs, hchain, _⟩ := exists_frame_of_walk (sound_root g) h hboth
    have hnodup := hs.nodup
    rw [hchain, show g.root.chain = [g.file] from rfl, List.singleton_append, ← List.cons_append] at hnodup
    have hfirst : p ∈ g.file :: walk := hlast ▸ List.getLast_mem _
    have hsecond : p ∈ q :: round := hback ▸ List.getLast_mem _
    exact List.disjoint_of_nodup_append hnodup hfirst hsecond
  shallow walk hwalk := by
    obtain ⟨fr, _, hchain, hlen⟩ := exists_frame_of_walk (sound_root g) h hwalk
    by_cases hnil : walk = []
    · simp [hnil]
    · have hle := hlen hnil
      rw [hchain] at hle
      simp only [root, List.length_append, List.length_cons, List.length_nil] at hle
      omega

theorem resolvable_iff (g : IncludeGraph) :
    g.Resolvable ↔ ∀ trail e, ¬ g.Offends g.root trail e :=
  ⟨fun hg _ _ ho => ho.not_resolvable (sound_root g) hg, resolvable_of_no_offence⟩

/-! ## The first offence -/

theorem Offends.unique {trail : List Nat} {e e' : ParseError} (h : g.Offends fr trail e)
    (h' : g.Offends fr trail e') : e = e' := by
  induction h with
  | here hd hf =>
    cases h' with
    | here hd' hf' =>
      rw [hd] at hd'
      cases hd'
      rw [hf] at hf'
      cases hf'
      rfl
    | deeper _ _ ht => cases ht
  | deeper hd hf ht ih =>
    cases h' with
    | here => cases ht
    | deeper hd' hf' ht' =>
      rw [hd] at hd'
      cases hd'
      rw [hf] at hf'
      cases hf'
      exact ih ht'

theorem not_lex_of_lex {s t : List Nat} (h : List.Lex (· < ·) s t) : ¬ List.Lex (· < ·) t s := by
  induction h with
  | nil =>
    intro h'
    cases h'
  | cons _ ih =>
    intro h'
    cases h' with
    | cons h' => exact ih h'
    | rel h' => exact Nat.lt_irrefl _ h'
  | rel h =>
    intro h'
    cases h' with
    | cons => exact Nat.lt_irrefl _ h
    | rel h' => exact Nat.lt_asymm h h'

theorem First.unique {trail trail' : List Nat} {e e' : ParseError} (h : g.First fr trail e)
    (h' : g.First fr trail' e') : e = e' := by
  by_cases heq : trail' = trail
  · subst heq
    exact h.offends.unique h'.offends
  · have hlex := h.least _ _ h'.offends heq
    exact absurd (h'.least _ _ h.offends (Ne.symm heq)) (not_lex_of_lex hlex)

/-- The directives before number `i` lead to no offence. -/
def Clean (g : IncludeGraph) (fr : Frame) (i : Nat) : Prop :=
  ∀ j < i, ∀ d, (directives fr.text)[j]? = some d →
    ∃ fr', g.follow fr d = .ok fr' ∧ ∀ trail e, ¬ g.Offends fr' trail e

theorem Clean.le {i j : Nat} {trail : List Nat} {e : ParseError} (hc : g.Clean fr i)
    (h : g.Offends fr (j :: trail) e) : i ≤ j := by
  by_contra hlt
  cases h with
  | here hd hf =>
    obtain ⟨fr', hok, _⟩ := hc j (by omega) _ hd
    rw [hf] at hok
    cases hok
  | deeper hd hf ht =>
    obtain ⟨fr', hok, hnone⟩ := hc j (by omega) _ hd
    rw [hf] at hok
    cases hok
    exact hnone _ _ ht

theorem first_here {i : Nat} {fault : IncludeFault} (hc : g.Clean fr i)
    (hd : (directives fr.text)[i]? = some d) (hf : g.follow fr d = .error fault) :
    g.First fr [i] ⟨fr.file, d.1, .badInclude fault⟩ where
  offends := .here hd hf
  least trail e h hne := by
    cases trail with
    | nil => cases h
    | cons j trail =>
      rcases Nat.lt_or_eq_of_le (hc.le h) with hlt | rfl
      · exact .rel hlt
      · cases trail with
        | nil => exact absurd rfl hne
        | cons k trail => exact .cons .nil

theorem first_deeper {i : Nat} {trail : List Nat} {e : ParseError} (hc : g.Clean fr i)
    (hd : (directives fr.text)[i]? = some d) (hf : g.follow fr d = .ok fr')
    (h : g.First fr' trail e) : g.First fr (i :: trail) e where
  offends := .deeper hd hf h.offends
  least trail' e' h' hne := by
    cases h' with
    | @here _ j d' _ hd' hf' =>
      rcases Nat.lt_or_eq_of_le (hc.le (.here hd' hf')) with hlt | rfl
      · exact .rel hlt
      · rw [hd] at hd'
        cases hd'
        rw [hf] at hf'
        cases hf'
    | @deeper _ fr'' j d' trail'' _ hd' hf' ht' =>
      rcases Nat.lt_or_eq_of_le (hc.le (.deeper hd' hf' ht')) with hlt | rfl
      · exact .rel hlt
      · rw [hd] at hd'
        cases hd'
        rw [hf] at hf'
        cases hf'
        exact .cons (h.least _ _ ht' fun heq => hne (by rw [heq]))

end IncludeGraph
end ShaderForge
