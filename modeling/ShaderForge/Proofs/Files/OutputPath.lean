import Mathlib.Data.List.TakeWhile
import ShaderForge.Proofs.Files.Quiet

/-!
# ShaderForge.Proofs.Files.OutputPath

The path of a file to be written, and the directories above it.

* `Path.cleaned_cleaned`   — cleaning twice is cleaning once.
* `OutputPath`             — a clean path that ends in a plain name, taken apart.
* `OutputPath.dir_path`, `OutputPath.base_path`, `exists_outputPath` — how it is put together.
* `OutputPath.mkdirAll_dir` — which directories are made, one for each component.
* `OutputPath.find_dir`, `OutputPath.find_path`, `OutputPath.find_inside` — where the paths lead.
-/

namespace ShaderForge

variable {rooted : Bool} {c : Bytes} {cs : List Bytes}

open Bytes (slash)

namespace Path

variable {above : List Bytes}

/-- Components, in reverse, that cleaning leaves alone. -/
def Settled (rooted : Bool) (above : List Bytes) : Prop := above.reverse.foldl (cleanStep rooted) [] = above

theorem Settled.cons (h : Settled rooted above) (hc : cleanStep rooted above c = c :: above) :
    Settled rooted (c :: above) := by
  rw [Settled, List.reverse_cons, List.foldl_append, show above.reverse.foldl (cleanStep rooted) [] = above from h]
  exact hc

theorem Settled.of_cons (h : Settled rooted (c :: above)) (hc : ∀ above, cleanStep rooted above c = c :: above) :
    Settled rooted above := by
  rw [Settled, List.reverse_cons, List.foldl_append, List.foldl_cons, List.foldl_nil, hc] at h
  exact (List.cons.inj h).2

theorem Settled.cleanStep (h : Settled rooted above) (hdots : ∀ c ∈ above, c ≠ [] ∧ c ≠ dot) (c : Bytes) :
    Settled rooted (cleanStep rooted above c) ∧ ∀ b ∈ Path.cleanStep rooted above c, b ≠ [] ∧ b ≠ dot := by
  unfold Path.cleanStep
  split
  · exact ⟨h, hdots⟩
  rename_i hnamed
  simp only [Bool.or_eq_true, decide_eq_true_eq, not_or] at hnamed
  split
  · rename_i hup
    subst hup
    split
    · cases rooted with
      | true => exact ⟨rfl, by simp⟩
      | false => exact ⟨rfl, by decide⟩
    · rename_i top below
      split
      · rename_i htop
        refine ⟨h.cons ?_, List.forall_mem_cons.2 ⟨hnamed, hdots⟩⟩
        simp [Path.cleanStep, htop, show dotDot ≠ ([] : Bytes) by decide, show dotDot ≠ dot by decide]
      · rename_i htop
        have hd := hdots top List.mem_cons_self
        refine ⟨h.of_cons fun above => ?_, fun b hb => hdots b (List.mem_cons_of_mem _ hb)⟩
        simp [Path.cleanStep, hd.1, hd.2, htop]
  · rename_i hup
    refine ⟨h.cons ?_, List.forall_mem_cons.2 ⟨hnamed, hdots⟩⟩
    simp [Path.cleanStep, hnamed.1, hnamed.2, hup]

theorem length_foldl_cleanStep_le (rooted : Bool) (cs above : List Bytes) :
    (cs.foldl (cleanStep rooted) above).length ≤ above.length + cs.length := by
  induction cs generalizing above with
  | nil => exact Nat.le_refl _
  | cons c cs ih =>
    have hstep : (Path.cleanStep rooted above c).length ≤ above.length + 1 := by
      unfold Path.cleanStep
      split
      · omega
      split
      · split
        · split <;> simp
        · split <;> simp
          omega
      · simp
    have hrest := ih (Path.cleanStep rooted above c)
    rw [List.foldl_cons, List.length_cons]
    omega

theorem Settled.tail (h : Settled rooted (c :: above)) (hc : c ≠ [] ∧ c ≠ dot) :
    Settled rooted above ∧ (c = dotDot → above = [] ∨ above.head? = some dotDot) := by
  by_cases hup : c = dotDot
  · subst hup
    have hlen := length_foldl_cleanStep_le rooted above.reverse []
    rw [Settled, List.reverse_cons, List.foldl_append, List.foldl_cons, List.foldl_nil] at h
    rw [Settled]
    generalize above.reverse.foldl (Path.cleanStep rooted) [] = stack at h hlen ⊢
    simp only [Path.cleanStep, hc.1, hc.2, decide_false, Bool.or_self, Bool.false_eq_true, if_false, if_true] at h
    split at h
    · split at h
      · cases h
      · obtain rfl := (List.cons.inj h).2
        exact ⟨rfl, fun _ => .inl rfl⟩
    · rename_i top below
      split at h
      · rename_i htop
        obtain rfl := (List.cons.inj h).2
        exact ⟨rfl, fun _ => .inr (by rw [htop]; rfl)⟩
      · -- one step up too many would have been taken back
        rw [h] at hlen
        simp only [List.length_cons, List.length_nil, List.length_reverse] at hlen
        omega
  · refine ⟨h.of_cons fun above => ?_, fun heq => absurd heq hup⟩
    simp [Path.cleanStep, hc.1, hc.2, hup]

theorem Settled.dotDot (h : Settled rooted (dotDot :: above)) (hdots : ∀ c ∈ above, c ≠ [] ∧ c ≠ dot) :
    ∀ c ∈ above, c = dotDot := by
  induction above with
  | nil => simp
  | cons b above ih =>
    obtain ⟨htail, hhead⟩ := h.tail (by decide)
    rcases hhead rfl with hnil | hb
    · cases hnil
    · obtain rfl : b = Path.dotDot := by simpa using hb
      exact List.forall_mem_cons.2 ⟨rfl, ih htail fun c hc => hdots c (List.mem_cons_of_mem _ hc)⟩

theorem settled_foldl (cs : List Bytes) : ∀ above, Settled rooted above →
    (∀ c ∈ above, c ≠ [] ∧ c ≠ dot) → Settled rooted (cs.foldl (cleanStep rooted) above) ∧
      ∀ c ∈ cs.foldl (cleanStep rooted) above, c ≠ [] ∧ c ≠ dot := by
  induction cs with
  | nil => exact fun above habove hdots => ⟨habove, hdots⟩
  | cons c cs ih =>
    intro above habove hdots
    obtain ⟨hstep, hdots'⟩ := habove.cleanStep hdots c
    exact ih _ hstep hdots'

theorem cleaned_cleaned (rooted : Bool) (cs : List Bytes) : cleaned rooted (cleaned rooted cs) = cleaned rooted cs := by
  have hsettled : Settled rooted (cs.foldl (cleanStep rooted) []) := (settled_foldl cs [] rfl (by simp)).1
  rw [cleaned, cleaned]
  exact congrArg List.reverse hsettled

theorem dots_of_mem_cleaned (h : c ∈ cleaned rooted cs) :
    c ≠ [] ∧ c ≠ dot := by
  rw [cleaned, List.mem_reverse] at h
  exact (settled_foldl cs [] rfl (by simp)).2 c h

end Path

/-- A clean path that ends in a plain name. -/
structure OutputPath where
  rooted : Bool
  /-- The components of the directory. -/
  above : List Bytes
  base : Bytes
  clean : Path.cleaned rooted above = above
  no_slash : ∀ c ∈ above, slash ∉ c
  plain : Path.Plain base

namespace OutputPath

variable (t : OutputPath)

def path : Path := Path.ofComponents t.rooted (t.above ++ [t.base])

def dir : Path := Path.ofComponents t.rooted t.above

/-- The first `k` components of the directory, as read from a path. -/
def lead (k : Nat) : List Bytes := (if t.rooted then [[]] else []) ++ t.above.take k

def rung (k : Nat) : Path := Path.ofComponents t.rooted (t.above.take k)

theorem named_of_mem (h : c ∈ t.above) : c ≠ [] ∧ c ≠ Path.dot := by
  rw [← t.clean] at h
  exact Path.dots_of_mem_cleaned h

theorem components_rung {k : Nat} (hk : t.above.take k ≠ []) : Path.components (t.rung k) = t.lead k :=
  Path.components_ofComponents t.rooted hk fun c hc => t.no_slash c (List.mem_of_mem_take hc)

theorem components_path : Path.components t.path = t.lead t.above.length ++ [t.base] := by
  rw [path, Path.components_ofComponents t.rooted (by simp), lead, List.take_length, List.append_assoc]
  intro c hc
  rcases List.mem_append.1 hc with hc | hc
  · exact t.no_slash c hc
  · rw [List.mem_singleton.1 hc]
    exact t.plain.no_slash

theorem isAbsolute_ofComponents (h : ∀ c ∈ cs, c ≠ [] ∧ slash ∉ c) :
    Path.isAbsolute (Path.ofComponents rooted cs) = rooted := by
  cases rooted with
  | true => rfl
  | false =>
    cases cs with
    | nil => rfl
    | cons c cs =>
      obtain ⟨hne, hslash⟩ := h c List.mem_cons_self
      cases c with
      | nil => exact absurd rfl hne
      | cons b c =>
        have hb : b ≠ slash := fun heq => hslash (by simp [heq])
        cases cs <;> simp [Path.ofComponents, Bytes.join, Path.isAbsolute, hb]

theorem ne_dotDot_of_append {front back : List Bytes} (h : t.above = front ++ c :: back) (hc : c ≠ Path.dotDot) :
    ∀ b ∈ back, b ≠ Path.dotDot := by
  rintro b hb rfl
  obtain ⟨mid, rest, rfl⟩ := List.append_of_mem hb
  have hsettled : Path.Settled t.rooted (rest.reverse ++ Path.dotDot :: (front ++ c :: mid).reverse) := by
    have hclean := t.clean
    rw [h, Path.cleaned] at hclean
    have hreverse := congrArg List.reverse hclean
    rw [List.reverse_reverse] at hreverse
    rw [Path.Settled]
    simpa using hreverse
  have hnamed : ∀ x ∈ rest.reverse ++ Path.dotDot :: (front ++ c :: mid).reverse, x ≠ [] ∧ x ≠ Path.dot := by
    intro x hx
    refine t.named_of_mem ?_
    rw [h]
    simp only [List.mem_append, List.mem_reverse, List.mem_cons] at hx ⊢
    tauto
  have htail : Path.Settled t.rooted (Path.dotDot :: (front ++ c :: mid).reverse) := by
    generalize Path.dotDot :: (front ++ c :: mid).reverse = below at hsettled hnamed
    generalize rest.reverse = top at hsettled hnamed
    induction top with
    | nil => exact hsettled
    | cons x top ih =>
      exact ih (hsettled.tail (hnamed x List.mem_cons_self)).1 fun y hy => hnamed y (List.mem_cons_of_mem _ hy)
  refine hc (htail.dotDot (fun x hx => hnamed x ?_) c (by simp))
  exact List.mem_append_right _ (List.mem_cons_of_mem _ hx)

theorem mem_above (h : c ∈ t.above) : c ≠ [] ∧ slash ∉ c := ⟨(t.named_of_mem h).1, t.no_slash c h⟩

theorem isAbsolute_rung (k : Nat) : Path.isAbsolute (t.rung k) = t.rooted :=
  isAbsolute_ofComponents fun _ hc => t.mem_above (List.mem_of_mem_take hc)

theorem isAbsolute_dir : Path.isAbsolute t.dir = t.rooted := isAbsolute_ofComponents fun _ hc => t.mem_above hc

theorem isAbsolute_path : Path.isAbsolute t.path = t.rooted := by
  refine isAbsolute_ofComponents fun c hc => ?_
  rcases List.mem_append.1 hc with hc | hc
  · exact t.mem_above hc
  · rw [List.mem_singleton.1 hc]
    exact ⟨t.plain.ne_nil, t.plain.no_slash⟩

def start (d : Disk) : Place := if t.rooted then [] else d.cwd

theorem start_rung (d : Disk) (k : Nat) : d.start (t.rung k) = t.start d := by
  rw [Disk.start, isAbsolute_rung, start]

theorem start_dir (d : Disk) : d.start t.dir = t.start d := by rw [Disk.start, isAbsolute_dir, start]

theorem start_path (d : Disk) : d.start t.path = t.start d := by rw [Disk.start, isAbsolute_path, start]

theorem rung_length : t.rung t.above.length = t.dir := by rw [rung, List.take_length, dir]

theorem components_dir (habove : t.above ≠ []) : Path.components t.dir = t.lead t.above.length := by
  rw [← t.rung_length]
  exact t.components_rung (by rwa [List.take_length])

theorem getLast?_components_dir (habove : t.above ≠ []) : (Path.components t.dir).getLast? ≠ some [] := by
  rw [t.components_dir habove, lead, List.take_length, List.getLast?_append_of_ne_nil _ habove]
  exact fun hlast => (t.named_of_mem (List.mem_of_getLast? hlast)).1 rfl

theorem dir_ne_nil : t.dir ≠ [] := by
  by_cases habove : t.above = []
  · rw [dir, habove]
    cases t.rooted <;> decide
  · intro hnil
    refine t.getLast?_components_dir habove ?_
    rw [hnil]
    rfl

/-! ## How the path is put together -/

theorem join_concat (h : cs ≠ []) (c : Bytes) :
    Bytes.join [slash] (cs ++ [c]) = Bytes.join [slash] cs ++ slash :: c := by
  induction cs with
  | nil => exact absurd rfl h
  | cons b cs ih =>
    cases cs with
    | nil => simp [Bytes.join]
    | cons b' cs =>
      have hrest := ih (by simp)
      simp only [List.cons_append] at hrest ⊢
      rw [Bytes.join, hrest, Bytes.join]
      simp

theorem path_eq : (t.rooted = false ∧ t.above = [] ∧ t.path = t.base) ∨
    ∃ front, t.path = front ++ slash :: t.base ∧ Path.clean (front ++ [slash]) = t.dir := by
  by_cases habove : t.above = []
  · cases hrooted : t.rooted with
    | false => exact .inl ⟨rfl, habove, by simp [path, habove, hrooted, Path.ofComponents, Bytes.join]⟩
    | true =>
      refine .inr ⟨[], by simp [path, habove, hrooted, Path.ofComponents, Bytes.join], ?_⟩
      rw [dir, habove, hrooted]
      decide
  · refine .inr ⟨t.dir, ?_, ?_⟩
    · rw [path, dir, Path.ofComponents, Path.ofComponents, join_concat habove]
      cases t.rooted <;> simp [habove]
    · have hne := t.dir_ne_nil
      have hcomponents : Path.components (t.dir ++ [slash]) = Path.components t.dir ++ [[]] :=
        Path.components_append_slash t.dir []
      rw [Path.clean, Path.isAbsolute_append hne, isAbsolute_dir]
      have hclean : Path.cleanComponents (t.dir ++ [slash]) = t.above := by
        change Path.cleaned (Path.isAbsolute (t.dir ++ [slash])) (Path.components (t.dir ++ [slash])) = _
        rw [hcomponents, Path.isAbsolute_append hne, isAbsolute_dir, dir,
          Path.components_ofComponents t.rooted habove t.no_slash]
        conv_rhs => rw [← t.clean]
        cases t.rooted <;> simp [Path.cleaned, Path.cleanStep]
      rw [hclean, dir]

theorem ne_slash_of_mem_reverse (hc : slash ∉ c) : ∀ b ∈ c.reverse, decide (b ≠ slash) = true := by
  intro b hb
  rw [decide_eq_true_eq]
  rintro rfl
  exact hc (List.mem_reverse.1 hb)

theorem dir_path : Path.dir t.path = t.dir := by
  rcases t.path_eq with ⟨hrooted, habove, hpath⟩ | ⟨front, hpath, hclean⟩
  · have hcut : t.base.reverse.dropWhile (· ≠ slash) = [] := by
      exact List.dropWhile_eq_nil_iff.2 (ne_slash_of_mem_reverse t.plain.no_slash)
    rw [Path.dir, hpath, hcut, dir, hrooted, habove]
    decide
  · rw [Path.dir, hpath, List.reverse_append, List.reverse_cons, List.append_assoc,
      List.dropWhile_append_of_pos (ne_slash_of_mem_reverse t.plain.no_slash)]
    simpa using hclean

theorem base_path : Path.base t.path = t.base := by
  have hlast : ∀ b, t.base.getLast? = some b → b ≠ slash := by
    rintro b hb rfl
    exact t.plain.no_slash (List.mem_of_getLast? hb)
  -- no slashes stand at the end
  have hstrip : ∀ front, ((front ++ t.base).reverse.dropWhile (· = slash)).reverse = front ++ t.base := by
    intro front
    obtain ⟨init, b, hb⟩ := List.eq_nil_or_concat t.base |>.resolve_left t.plain.ne_nil
    rw [List.concat_eq_append] at hb
    have hne : b ≠ slash := hlast b (by simp [hb])
    simp [hb, hne]
  have hne : ∀ front : Bytes, front ++ t.base ≠ [] := fun front h => t.plain.ne_nil (List.append_eq_nil_iff.1 h).2
  rcases t.path_eq with ⟨-, -, hpath⟩ | ⟨front, hpath, -⟩
  · rw [Path.base, hpath, if_neg t.plain.ne_nil]
    have hsame := hstrip []
    rw [List.nil_append] at hsame
    rw [hsame]
    split
    · rename_i hnil
      exact absurd hnil t.plain.ne_nil
    · rw [Path.lastPart, List.takeWhile_eq_self_iff.2 (ne_slash_of_mem_reverse t.plain.no_slash),
        List.reverse_reverse]
  · have hsplit : front ++ slash :: t.base = front ++ [slash] ++ t.base := by simp
    rw [Path.base, hpath, hsplit, if_neg (hne _), hstrip]
    split
    · rename_i hnil
      exact absurd hnil (hne _)
    · rw [← hsplit, Path.lastPart, List.reverse_append, List.reverse_cons, List.append_assoc,
        List.takeWhile_append_of_pos (ne_slash_of_mem_reverse t.plain.no_slash)]
      simp

/-! ## The directories above -/

/-- The paths of the first `k` components, of the first `k - 1`, and so on. -/
def rungs : Nat → List Path
  | 0 => []
  | k + 1 => t.rung (k + 1) :: rungs k

theorem rungs_eq (k : Nat) : t.rungs k = ((List.range k).map fun i => t.rung (i + 1)).reverse := by
  induction k with
  | zero => rfl
  | succ k ih => rw [rungs, ih, List.range_succ]; simp

theorem parentsFrom_append {passed : Bytes} (hpassed : passed.head? ≠ some slash) (hc : slash ∉ c) (rest : Bytes) :
    Disk.parentsFrom passed (c ++ rest) = Disk.parentsFrom (c.reverse ++ passed) rest := by
  induction c generalizing passed with
  | nil => rfl
  | cons b c ih =>
    have hb : b ≠ slash := fun heq => hc (by simp [heq])
    rw [List.cons_append, Disk.parentsFrom.eq_def]
    simp only
    split
    · simp at hpassed
    · rw [ih (by simp [hb]) (fun hmem => hc (List.mem_cons_of_mem _ hmem))]
      simp

theorem parentsFrom_slash {front : Bytes} (hne : c ≠ []) (hc : slash ∉ c) (rest : Bytes) :
    Disk.parentsFrom (slash :: front) (c ++ rest) =
      (if front = [] then [] else [front.reverse]) ++ Disk.parentsFrom (c.reverse ++ slash :: front) rest := by
  cases c with
  | nil => exact absurd rfl hne
  | cons b c =>
    have hb : b ≠ slash := fun heq => hc (by simp [heq])
    have hrest : Disk.parentsFrom (b :: slash :: front) (c ++ rest) =
        Disk.parentsFrom (c.reverse ++ b :: slash :: front) rest :=
      parentsFrom_append (by simp [hb]) (fun hmem => hc (List.mem_cons_of_mem _ hmem)) rest
    have hopen : Disk.parentsFrom (slash :: front) (b :: (c ++ rest)) =
        if b ≠ slash && front ≠ [] then front.reverse :: Disk.parentsFrom (b :: slash :: front) (c ++ rest)
        else Disk.parentsFrom (b :: slash :: front) (c ++ rest) := rfl
    rw [List.cons_append, hopen, hrest]
    by_cases hfront : front = [] <;> simp [hb, hfront]

theorem parentsFrom_cons_slash (passed rest : Bytes) :
    Disk.parentsFrom passed (slash :: rest) = Disk.parentsFrom (slash :: passed) rest := by
  rw [Disk.parentsFrom.eq_def]
  simp only
  split <;> simp

theorem parentsFrom_join (hcs : cs ≠ []) (h : ∀ c ∈ cs, c ≠ [] ∧ slash ∉ c) (front : Bytes) :
    Disk.parentsFrom (slash :: front) (Bytes.join [slash] cs) =
      (if front = [] then [] else [front.reverse]) ++
        (List.range (cs.length - 1)).map fun i => front.reverse ++ slash :: Bytes.join [slash] (cs.take (i + 1)) := by
  induction cs generalizing front with
  | nil => exact absurd rfl hcs
  | cons c cs ih =>
    obtain ⟨hne, hslash⟩ := h c List.mem_cons_self
    cases cs with
    | nil =>
      have hlast : Disk.parentsFrom (slash :: front) (c ++ []) = _ := parentsFrom_slash hne hslash []
      rw [List.append_nil] at hlast
      simpa [Bytes.join, Disk.parentsFrom] using hlast
    | cons c' cs =>
      rw [Bytes.join, List.append_assoc, parentsFrom_slash hne hslash, List.singleton_append, parentsFrom_cons_slash,
        ih (by simp) fun b hb => h b (List.mem_cons_of_mem _ hb)]
      simp [List.range_succ_eq_map, Bytes.join, Function.comp_def]

theorem parents_dir (habove : t.above ≠ []) :
    Disk.parentsFrom [] t.dir = (List.range (t.above.length - 1)).map fun i => t.rung (i + 1) := by
  cases hrooted : t.rooted with
  | true =>
    have hdir : t.dir = slash :: Bytes.join [slash] t.above := by simp [dir, hrooted, Path.ofComponents]
    rw [hdir, parentsFrom_cons_slash, parentsFrom_join habove fun c hc => t.mem_above hc]
    simp [rung, hrooted, Path.ofComponents]
  | false =>
    have hrung : ∀ k, t.rung (k + 1) = Bytes.join [slash] (t.above.take (k + 1)) := by
      intro k
      simp [rung, hrooted, Path.ofComponents, habove]
    have hdir : t.dir = Bytes.join [slash] t.above := by simp [dir, hrooted, Path.ofComponents, habove]
    simp only [hrung, hdir]
    obtain ⟨c, cs, hcs⟩ := List.exists_cons_of_ne_nil habove
    have hmem : ∀ b ∈ c :: cs, b ≠ [] ∧ slash ∉ b := fun b hb => t.mem_above (hcs ▸ hb)
    obtain ⟨hne, hslash⟩ := hmem c List.mem_cons_self
    rw [hcs]
    cases cs with
    | nil =>
      have hlast : Disk.parentsFrom [] (c ++ []) = _ := parentsFrom_append (by simp) hslash []
      rw [List.append_nil] at hlast
      simpa [Bytes.join, Disk.parentsFrom] using hlast
    | cons c' cs =>
      rw [Bytes.join, List.append_assoc, parentsFrom_append (by simp) hslash, List.singleton_append,
        parentsFrom_cons_slash, parentsFrom_join (by simp) fun b hb => hmem b (List.mem_cons_of_mem _ hb)]
      simp [List.range_succ_eq_map, Bytes.join, Function.comp_def, hne]

theorem ladder_eq : t.dir :: (Disk.parentsFrom [] t.dir).reverse =
    if t.above = [] then [t.dir] else t.rungs t.above.length := by
  split
  · rename_i habove
    have hparents : Disk.parentsFrom [] t.dir = [] := by
      rw [dir, habove]
      cases t.rooted <;> decide
    rw [hparents]
    rfl
  · rename_i habove
    obtain ⟨n, hn⟩ := Nat.exists_eq_succ_of_ne_zero fun h => habove (List.length_eq_zero_iff.1 h)
    rw [t.parents_dir habove, hn, rungs, t.rungs_eq]
    have hdir := t.rung_length
    rw [hn] at hdir
    rw [hdir]
    rfl

theorem mkdirAll_dir (d : Disk) : d.mkdirAll t.dir =
    Disk.ensure (if t.above = [] then [t.dir] else t.rungs t.above.length) d := by
  rw [Disk.mkdirAll, t.ladder_eq]

/-! ## Where the paths lead -/

variable {t} {d : Disk} {follow : Bool} {f : Found}

theorem find_rung {k : Nat} (hk : t.above.take k ≠ []) : d.find follow (t.rung k) = .ok f ↔
    Disk.Admissible (t.rung k) ∧ d.Leads follow Disk.maxLinks (t.start d) (t.lead k) f := by
  rw [Disk.find_eq_ok_iff, t.components_rung hk, t.start_rung]

theorem find_path : d.find follow t.path = .ok f ↔ Disk.Admissible t.path ∧
    d.Leads follow Disk.maxLinks (t.start d) (t.lead t.above.length ++ [t.base]) f := by
  rw [Disk.find_eq_ok_iff, t.components_path, t.start_path]

theorem leads_dot {links : Nat} {place : Place} {rest : List Bytes} (hc : c = [] ∨ c = Path.dot) (hrest : rest ≠ []) :
    d.Leads follow links place (c :: rest) f ↔ d.Leads follow links place rest f := by
  obtain ⟨b, rest, rfl⟩ := List.exists_cons_of_ne_nil hrest
  constructor
  · intro h
    have hnames : ∀ {c : Bytes}, c = [] ∨ c = Path.dot → ¬ Disk.Names c :=
      fun hc hnames => hc.elim hnames.ne_nil hnames.ne_dot
    cases h with
    | stay _ _ h => exact h
    | up => exact absurd hc (by decide)
    | down _ hn => exact absurd hn (hnames hc)
    | jump _ hn => exact absurd hn (hnames hc)
    | vacant _ hn => exact absurd hn (hnames hc)
  · exact fun h => .stay h.directory_of_cons hc h

theorem isAbsolute_inside (x : Bytes) : Path.isAbsolute (Disk.inside t.dir x) = t.rooted := by
  unfold Disk.inside
  split
  · rw [Path.isAbsolute_append t.dir_ne_nil, t.isAbsolute_dir]
  · rw [List.append_assoc, Path.isAbsolute_append t.dir_ne_nil, t.isAbsolute_dir]

/-- The components of a name in the directory; a dot stands for the directory itself. -/
theorem components_inside {x : Bytes} (hx : slash ∉ x) :
    Path.components (Disk.inside t.dir x) = t.lead t.above.length ++ [x] ∨
      Path.components (Disk.inside t.dir x) = Path.dot :: (t.lead t.above.length ++ [x]) := by
  have hslash : ∀ p : Path, Path.components (p ++ slash :: x) = Path.components p ++ [x] := by
    intro p
    rw [Path.components_append_slash, Path.components_of_not_mem hx]
  by_cases habove : t.above = []
  · cases hrooted : t.rooted with
    | true =>
      have hdir : t.dir = [slash] := by simp [dir, habove, hrooted, Path.ofComponents, Bytes.join]
      left
      rw [Disk.inside, hdir, if_pos (by decide), lead, habove, hrooted]
      exact hslash []
    | false =>
      have hdir : t.dir = Path.dot := by simp [dir, habove, hrooted, Path.ofComponents]
      right
      rw [Disk.inside, hdir, if_neg (by decide), List.append_assoc, List.singleton_append, hslash, lead, habove, hrooted]
      rfl
  · left
    rw [Disk.inside, if_neg, List.append_assoc, List.singleton_append, hslash, t.components_dir habove]
    intro hlast
    obtain ⟨p, hp⟩ := List.getLast?_eq_some_iff.1 hlast
    refine t.getLast?_components_dir habove ?_
    rw [hp, Path.components_append_slash p []]
    exact List.getLast?_concat

theorem find_inside {x : Bytes} (hx : slash ∉ x) : d.find follow (Disk.inside t.dir x) = .ok f ↔
    Disk.Admissible (Disk.inside t.dir x) ∧
      d.Leads follow Disk.maxLinks (t.start d) (t.lead t.above.length ++ [x]) f := by
  have hstart : d.start (Disk.inside t.dir x) = t.start d := by rw [Disk.start, isAbsolute_inside, start]
  rw [Disk.find_eq_ok_iff, hstart]
  rcases components_inside hx with heq | heq
  · rw [heq]
  · rw [heq, leads_dot (.inr rfl) (by simp)]

theorem find_dir {P : Place} : d.find true t.dir = .ok (.node P .directory) ↔
    Disk.Admissible t.dir ∧
      d.Leads true Disk.maxLinks (t.start d) (t.lead t.above.length) (.node P .directory) := by
  by_cases habove : t.above = []
  · have hhere : ∀ {links : Nat} {place : Place} {c : Bytes}, c = [] ∨ c = Path.dot →
        (d.Leads true links place [c] (.node P .directory) ↔ d.Leads true links place [] (.node P .directory)) := by
      intro links place c hc
      constructor
      · intro h
        have hnames : ¬ Disk.Names c := fun hn => hc.elim hn.ne_nil hn.ne_dot
        cases h with
        | stay _ _ h => exact h
        | up => exact absurd hc (by decide)
        | down _ hn => exact absurd hn hnames
        | jump _ hn => exact absurd hn hnames
      · intro h
        cases h with
        | here hn => exact .stay hn hc (.here hn)
    rw [Disk.find_eq_ok_iff, t.start_dir]
    cases hrooted : t.rooted with
    | true =>
      have hdir : t.dir = [slash] := by simp [dir, habove, hrooted, Path.ofComponents, Bytes.join]
      rw [hdir, show Path.components [slash] = [[], []] by decide, lead, habove, hrooted]
      rw [leads_dot (.inl rfl) (by simp)]
      simp
    | false =>
      have hdir : t.dir = Path.dot := by simp [dir, habove, hrooted, Path.ofComponents]
      rw [hdir, show Path.components Path.dot = [Path.dot] by decide, lead, habove, hrooted, hhere (.inr rfl)]
      simp
  · rw [Disk.find_eq_ok_iff, t.components_dir habove, t.start_dir]

end OutputPath

theorem exists_outputPath_clean (dir : Path) {name : Bytes} (hname : Path.Plain name) :
    ∃ t : OutputPath, t.path = Path.join dir name ∧ t.base = name ∧ t.dir = Path.clean dir := by
  by_cases hdir : dir = []
  · refine ⟨⟨false, [], name, rfl, by simp, hname⟩, ?_, rfl, by rw [hdir]; rfl⟩
    have hclean : Path.cleanComponents name = [name] := by
      rw [Path.cleanComponents, Path.components_of_not_mem hname.no_slash]
      simp [Path.cleanStep, hname.ne_nil, hname.ne_dot, hname.ne_dotDot]
    have habsolute : Path.isAbsolute name = false := by
      cases hn : name with
      | nil => rfl
      | cons b rest =>
        have hb : b ≠ slash := fun heq => hname.no_slash (by simp [hn, heq])
        simp [Path.isAbsolute, hb]
    simp [OutputPath.path, Path.join, Path.joinAll, hdir, hname.ne_nil, Bytes.join, Path.clean, hclean, habsolute]
  · have hslash : ∀ c ∈ Path.cleaned (Path.isAbsolute dir) (Path.components dir), slash ∉ c :=
      fun c hc => Path.no_slash_of_mem_components (Path.mem_of_mem_cleaned hc)
    refine ⟨⟨Path.isAbsolute dir, Path.cleaned (Path.isAbsolute dir) (Path.components dir), name,
      Path.cleaned_cleaned _ _, hslash, hname⟩, ?_, rfl, rfl⟩
    rw [Path.join_eq_clean hdir hname.ne_nil, Path.clean, Path.isAbsolute_append hdir]
    have hclean : Path.cleanComponents (dir ++ slash :: name) =
        Path.cleaned (Path.isAbsolute dir) (Path.components dir) ++ [name] := by
      change Path.cleaned (Path.isAbsolute (dir ++ slash :: name)) (Path.components (dir ++ slash :: name)) = _
      rw [Path.isAbsolute_append hdir, Path.components_append_slash, Path.components_of_not_mem hname.no_slash,
        Path.cleaned_append_plain _ _ hname]
    rw [hclean]
    rfl

theorem exists_outputPath (dir : Path) {name : Bytes} (hname : Path.Plain name) :
    ∃ t : OutputPath, t.path = Path.join dir name ∧ t.base = name := by
  obtain ⟨t, hpath, hbase, -⟩ := exists_outputPath_clean dir hname
  exact ⟨t, hpath, hbase⟩

end ShaderForge
