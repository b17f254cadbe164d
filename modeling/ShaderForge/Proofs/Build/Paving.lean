import ShaderForge.Proofs.Build.Deposits
import ShaderForge.Proofs.Pipeline.WriteCalls

/-!
# ShaderForge.Proofs.Build.Paving

Making the directories of a file while others make theirs.

* `Yard.Made`, `Yard.Pavable` — the way as far as it leads, and a way that nothing stands in.
* `Yard.Stands.mkdir_rung`    — what making a directory of the way changes.
* `Yard.Laid`                 — what comes of making them: they can all be made if nothing stood in the way at first.
* `Yard.Stands.safe_dir`      — so it is, whatever directories others make meanwhile.
-/

namespace ShaderForge

open Disk

theorem Disk.Admissible.of_prefix {p q : Path} (h : Admissible q) (hp : p <+: q) (hne : p ≠ []) :
    Admissible p := by
  refine ⟨?_, hne, Nat.lt_of_le_of_lt hp.length_le h.short⟩
  rw [Bool.eq_false_iff, Ne, Bytes.contains_singleton]
  intro hzero
  have hnul := h.no_nul
  rw [Bytes.contains_singleton.2 (hp.subset hzero)] at hnul
  cases hnul

theorem Disk.stat_of_find {d : Disk} {p : Path} {P : Place} {n : Node} (h : d.find true p = .ok (.node P n)) :
    d.stat p = .ok n := by
  rw [Disk.stat, Disk.inspect, h]

theorem Disk.lstat_of_find {d : Disk} {p : Path} {P : Place} {n : Node} (h : d.find false p = .ok (.node P n)) :
    d.lstat p = .ok n := by
  rw [Disk.lstat, Disk.inspect, h]

namespace OutputPath

variable {t : OutputPath}

theorem join_prefix (front back : List Bytes) :
    Bytes.join [Bytes.slash] front <+: Bytes.join [Bytes.slash] (front ++ back) := by
  induction back using List.reverseRecOn with
  | nil => rw [List.append_nil]
  | append_singleton back c ih =>
    by_cases hnil : front ++ back = []
    · obtain ⟨rfl, -⟩ := List.append_eq_nil_iff.1 hnil
      exact List.nil_prefix
    · rw [← List.append_assoc, join_concat hnil]
      exact ih.trans (List.prefix_append _ _)

theorem admissible_rung (h : Admissible t.dir) {k : Nat} (hk : k < t.above.length) : Admissible (t.rung (k + 1)) := by
  have hrung : t.rung (k + 1) <+: t.dir := by
    have hjoin := join_prefix (t.above.take (k + 1)) (t.above.drop (k + 1))
    rw [List.take_append_drop] at hjoin
    have hne : t.above ≠ [] := List.ne_nil_of_length_pos (by omega)
    unfold rung dir Path.ofComponents
    rw [if_neg (take_ne_nil hk), if_neg hne]
    split
    · exact List.cons_prefix_cons.2 ⟨rfl, hjoin⟩
    · exact hjoin
  refine h.of_prefix hrung fun hnil => ?_
  have hcomponents := t.components_rung (take_ne_nil hk)
  rw [hnil, lead_succ hk] at hcomponents
  have hmem : t.above[k] ∈ Path.components [] := by
    rw [hcomponents]
    simp
  exact (t.named_of_mem (List.getElem_mem hk)).1 (List.mem_singleton.1 hmem)

theorem admissible_of_inside {x : Bytes} (h : Admissible (inside t.dir x)) : Admissible t.dir := by
  have hdir : t.dir <+: inside t.dir x := by
    unfold inside
    split
    · exact List.prefix_append _ _
    · rw [List.append_assoc]
      exact List.prefix_append _ _
  exact h.of_prefix hdir t.dir_ne_nil

end OutputPath

namespace Yard

variable {y : Yard} {a : Deposit} {d d' d₀ : Disk} {k : Nat}

/-! ## The way -/

/-- The first components of the way lead to a directory. -/
def Made (y : Yard) (a : Deposit) (k : Nat) (d : Disk) : Prop :=
  ∃ P, d.Leads true maxLinks y.start ((y.target a).lead k) (.node P .directory)

theorem Made.yields (h : y.Made a k d) (hd : y.Stands d) (hy : y.Yields a d d') : y.Made a k d' := by
  rcases y.lead_cases a k with hfront | ⟨cs, hne, hcs, hlead⟩
  · exact (hy.stands hd).leads_front hfront
  · obtain ⟨P, hP⟩ := h
    rw [hlead, hd.leads_directory_iff a.plain_dirs hcs] at hP
    obtain ⟨rfl, hnames, hdir⟩ := hP
    refine ⟨y.origin ++ cs, ?_⟩
    rw [hlead, (hy.stands hd).leads_directory_iff a.plain_dirs hcs]
    exact ⟨rfl, hnames, hy.directory _ hdir⟩

theorem Stands.made_zero (h : y.Stands d) (a : Deposit) : y.Made a 0 d := by
  rcases y.lead_cases a 0 with hfront | ⟨cs, hne, hcs, hlead⟩
  · exact h.leads_front hfront
  · obtain ⟨c, hc⟩ := List.exists_mem_of_ne_nil cs hne
    have hmem : c ∈ (y.target a).lead 0 := by
      rw [hlead]
      exact List.mem_append_right _ hc
    have hnil : c = [] := by
      rw [OutputPath.lead, List.take_zero, List.append_nil] at hmem
      split at hmem
      · exact List.mem_singleton.1 hmem
      · cases hmem
    exact absurd hnil (y.named_of_mem a.plain_dirs c (hcs.subset hc)).1.1

/-- The directories on the way can all be made. -/
structure Pavable (y : Yard) (a : Deposit) (d : Disk) : Prop where
  admissible : Admissible (y.target a).dir
  names : ∀ c ∈ a.dirs, Names c
  way : ∀ q, y.Way a q → d.node? q = none ∨ d.node? q = some .directory

theorem Pavable.yields (h : y.Pavable a d) (hy : y.Yields a d d') : y.Pavable a d' where
  admissible := h.admissible
  names := h.names
  way q hq := by
    rcases hy.way q hq with hsame | ⟨-, hdir⟩
    · rw [hsame]
      exact h.way q hq
    · exact .inr hdir

theorem way_append {cs : List Bytes} (hcs : cs <+: y.more ++ a.dirs) (hne : cs ≠ []) : y.Way a (y.origin ++ cs) :=
  ⟨List.prefix_append _ _, by simpa using hne, (List.prefix_append_right_inj _).2 hcs⟩

namespace Stands

theorem find_rung_iff (h : y.Stands d) (hk : k < (y.target a).above.length) {follow : Bool} {f : Found} :
    d.find follow ((y.target a).rung (k + 1)) = .ok f ↔ Admissible ((y.target a).rung (k + 1)) ∧
      d.Leads follow maxLinks y.start ((y.target a).lead (k + 1)) f := by
  rw [OutputPath.find_rung (OutputPath.take_ne_nil hk), h.start_target]

theorem mkdir_rung (h : y.Stands d) (hk : k < (y.target a).above.length)
    (hmade : d.mkdir ((y.target a).rung (k + 1)) = .ok d') :
    y.Changes a d d' ∧ y.Yields a d d' ∧ y.Made a (k + 1) d' := by
  have htree : d.IsTree → d'.IsTree := fun htree => htree.mkdir hmade
  obtain ⟨q, asDirectory, hf, rfl⟩ := mkdir_eq_ok hmade
  obtain ⟨-, hleads⟩ := (h.find_rung_iff hk).1 hf
  have hvacant : d.node? q = none := hleads.node?_place
  have hway : y.Way a q := by
    rcases y.lead_cases a (k + 1) with hfront | ⟨cs, hne, hcs, hlead⟩
    · -- where the way stands, nothing is left to be made
      obtain ⟨P, hP⟩ := h.leads_front hfront
      rcases hP.nofollow with hdir | ⟨p, target, hlink⟩
      · cases hdir.unique hleads
      · cases hlink.unique hleads
    · rw [hlead] at hleads
      obtain ⟨rfl, -⟩ := h.place_of_leads a.plain_dirs hcs hne hleads
      exact way_append hcs hne
  have hnode : ∀ p, (d.put q .directory).node? p = if p = q then some .directory else d.node? p := by
    obtain ⟨P, c, rfl, -, -⟩ := hleads.parent
    exact node?_put d (by simp) .directory
  have hchanges : y.Changes a d (d.put q .directory) := by
    refine ⟨htree, cwd_put _ _ _, fun p => ?_⟩
    rw [hnode]
    split
    · rename_i hp
      subst hp
      exact .inr (.inl ⟨hway, hvacant, rfl⟩)
    · exact .inl rfl
  refine ⟨hchanges, hchanges.yields_of_own a.not_below_self fun p hp => ?_, ⟨q, hleads.put⟩⟩
  rw [hnode, if_neg]
  rintro rfl
  exact hp.not_self_way hway

/-- The last name of the way to a directory, from the directory before it. -/
theorem find_last (h : y.Stands d) (hp : y.Pavable a d) (hk : k < (y.target a).above.length) {cs : List Bytes}
    {c : Bytes} {f : Found} (hcs : cs ++ [c] <+: y.more ++ a.dirs)
    (hlead : (y.target a).lead (k + 1) = y.front ++ (cs ++ [c]))
    (hdir : d.node? (y.origin ++ cs) = some .directory)
    (hlast : Names c → ∀ links, d.Leads false links (y.origin ++ cs) [c] f) :
    d.find false ((y.target a).rung (k + 1)) = .ok f := by
  have hnames : ∀ b ∈ cs ++ [c], Names b := by
    intro b hb
    rcases List.mem_append.1 (hcs.subset hb) with hb | hb
    · exact y.names b hb
    · exact hp.names b hb
  refine (h.find_rung_iff hk).2 ⟨OutputPath.admissible_rung hp.admissible hk, ?_⟩
  rw [hlead]
  exact h.leads (fun b hb => hnames b (List.mem_append_left _ hb)) hdir (by simp) (hlast (hnames c (by simp)))

theorem lstat_rung (h : y.Stands d) (hp : y.Pavable a d) (hk : k < (y.target a).above.length) {cs : List Bytes}
    {c : Bytes} (hcs : cs ++ [c] <+: y.more ++ a.dirs)
    (hlead : (y.target a).lead (k + 1) = y.front ++ (cs ++ [c]))
    (hdir : d.node? (y.origin ++ cs ++ [c]) = some .directory) :
    d.lstat ((y.target a).rung (k + 1)) = .ok .directory := by
  have hparent := h.tree _ _ _ hdir
  exact lstat_of_find (h.find_last hp hk hcs hlead hparent fun hc _ => .down hparent hc hdir (by simp) (.here hdir))

theorem mkdir_or_directory (h : y.Stands d) (hp : y.Pavable a d) (hk : k < (y.target a).above.length)
    (hmade : y.Made a k d) {cs : List Bytes} {c : Bytes} (hcs : cs ++ [c] <+: y.more ++ a.dirs)
    (hlead : (y.target a).lead (k + 1) = y.front ++ (cs ++ [c])) :
    (∃ d', d.mkdir ((y.target a).rung (k + 1)) = .ok d') ∨ d.node? (y.origin ++ cs ++ [c]) = some .directory := by
  have hbefore : (y.target a).lead k = y.front ++ cs := by
    rw [OutputPath.lead_succ hk, ← List.append_assoc] at hlead
    exact (List.append_inj' hlead rfl).1
  obtain ⟨P, hP⟩ := hmade
  rw [hbefore, h.leads_directory_iff a.plain_dirs ((List.prefix_append _ _).trans hcs)] at hP
  obtain ⟨-, -, hdir⟩ := hP
  have hway := hp.way _ (way_append hcs (by simp))
  rw [← List.append_assoc] at hway
  rcases hway with hnone | hlast
  · left
    have hfind := h.find_last hp hk hcs hlead hdir fun hc _ => .vacant hdir hc hnone (by simp)
    exact ⟨_, by rw [Disk.mkdir, hfind]⟩
  · exact .inr hlast

theorem stat_rung (h : y.Stands d) (hp : y.Pavable a d) (hk : k < (y.target a).above.length)
    (hfront : (y.target a).lead (k + 1) <+: y.front) : d.stat ((y.target a).rung (k + 1)) = .ok .directory := by
  obtain ⟨P, hP⟩ := h.leads_front hfront
  exact stat_of_find ((h.find_rung_iff hk).2 ⟨OutputPath.admissible_rung hp.admissible hk, hP⟩)

theorem directory_of_stat (h : y.Stands d) (hp : y.Pavable a d) (hk : k < (y.target a).above.length) {n : Node}
    (hstat : d.stat ((y.target a).rung (k + 1)) = .ok n) : n = .directory := by
  obtain ⟨P, hf⟩ := find_of_stat hstat
  obtain ⟨-, hleads⟩ := (h.find_rung_iff hk).1 hf
  rcases y.lead_cases a (k + 1) with hfront | ⟨cs, hne, hcs, hlead⟩
  · obtain ⟨Q, hQ⟩ := h.leads_front hfront
    cases hleads.unique hQ
    rfl
  · rw [hlead] at hleads
    obtain ⟨rfl, -⟩ := h.place_of_leads a.plain_dirs hcs hne hleads
    have hn : d.node? (y.origin ++ cs) = some n := hleads.node?_place
    rcases hp.way _ (way_append hcs hne) with hnone | hdir
    · rw [hnone] at hn
      cases hn
    · rw [hdir] at hn
      cases hn
      rfl

theorem made_of_stat (h : y.Stands d) (hk : k < (y.target a).above.length)
    (hstat : d.stat ((y.target a).rung (k + 1)) = .ok .directory) : y.Made a (k + 1) d := by
  obtain ⟨P, hf⟩ := find_of_stat hstat
  obtain ⟨-, hleads⟩ := (h.find_rung_iff hk).1 hf
  exact ⟨P, hleads⟩

theorem made_of_lstat (h : y.Stands d) (hk : k < (y.target a).above.length)
    (hlstat : d.lstat ((y.target a).rung (k + 1)) = .ok .directory) : y.Made a (k + 1) d := by
  obtain ⟨P, hf⟩ := find_of_lstat hlstat
  obtain ⟨-, hleads⟩ := (h.find_rung_iff hk).1 hf
  exact ⟨P, hleads.followed (by simp) rfl⟩

end Stands

/-! ## Calls -/

/-- What making the first `k` directories from the tree `d₀` comes to. -/
structure Laid (y : Yard) (a : Deposit) (d₀ : Disk) (k : Nat) (r : Except FileError Unit) (d : Disk) : Prop where
  yields : y.Yields a d₀ d
  ok : y.Pavable a d₀ → r = .ok ()
  made : r = .ok () → y.Made a k d

theorem Laid.of_yields (h₀ : y.Stands d₀) {r : Except FileError Unit} (h : y.Laid a d₀ k r d) (hd : y.Yields a d d') :
    y.Laid a d₀ k r d' :=
  ⟨h.yields.trans hd, h.ok, fun hr => (h.made hr).yields (h.yields.stands h₀) hd⟩

theorem Laid.safe (h₀ : y.Stands d₀) {r : Except FileError Unit} (h : y.Laid a d₀ k r d) :
    (Writing.done r).Safe (y.Yields a) (y.Changes a) (y.Laid a d₀ k) d :=
  .done fun _ hd => h.of_yields h₀ hd

theorem Stands.safe_lookAgain (h₀ : y.Stands d₀) (hk : k < (y.target a).above.length) (hd : y.Yields a d₀ d)
    (hseen : y.Pavable a d₀ → ∀ d', y.Yields a d d' → d'.lstat ((y.target a).rung (k + 1)) = .ok .directory)
    (e : FileError) : (Writing.call (.lstat ((y.target a).rung (k + 1))) (lookAgain e)).Safe
      (y.Yields a) (y.Changes a) (y.Laid a d₀ (k + 1)) d := by
  refine .call (fun d' _ => .refl y a d') fun d' hd' => ?_
  have hall := hd.trans hd'
  show (lookAgain e (d'.lstat _)).Safe _ _ _ d'
  have hfailed : d'.lstat ((y.target a).rung (k + 1)) ≠ .ok .directory →
      (Writing.done (.error e)).Safe (y.Yields a) (y.Changes a) (y.Laid a d₀ (k + 1)) d' :=
    fun hne => Laid.safe h₀ ⟨hall, fun hp => absurd (hseen hp d' hd') hne, nofun⟩
  cases hlstat : d'.lstat ((y.target a).rung (k + 1)) with
  | error e' => exact hfailed (by simp [hlstat])
  | ok n =>
    cases n with
    | directory => exact Laid.safe h₀ ⟨hall, fun _ => rfl, fun _ => (hall.stands h₀).made_of_lstat hk hlstat⟩
    | file => exact hfailed (by simp [hlstat])
    | link => exact hfailed (by simp [hlstat])

theorem Stands.safe_makeInside (h₀ : y.Stands d₀) (hk : k < (y.target a).above.length) {d₁ : Disk}
    (hd₁ : y.Yields a d₀ d₁) {e : FileError} (hstat : d₁.stat ((y.target a).rung (k + 1)) = .error e)
    {r : Except FileError Unit} (h : y.Laid a d₀ k r d) :
    (makeInside ((y.target a).rung (k + 1)) r).Safe (y.Yields a) (y.Changes a) (y.Laid a d₀ (k + 1)) d := by
  cases r with
  | error e' => exact Laid.safe h₀ ⟨h.yields, h.ok, nofun⟩
  | ok _ =>
    have hall : ∀ {d₂}, y.Yields a d d₂ → y.Yields a d₀ d₂ := fun hd₂ => h.yields.trans hd₂
    refine .call (fun d₂ hd₂ => ?_) fun d₂ hd₂ => ?_
    · show y.Changes a d₂ (DiskCall.changed d₂ (d₂.mkdir _)).2
      cases hmkdir : d₂.mkdir ((y.target a).rung (k + 1)) with
      | error e' => exact .refl y a d₂
      | ok d₃ => exact (((hall hd₂).stands h₀).mkdir_rung hk hmkdir).1
    · have hstands := (hall hd₂).stands h₀
      show (madeOrSeen _ (DiskCall.changed d₂ (d₂.mkdir _)).1).Safe _ _ _ (DiskCall.changed d₂ (d₂.mkdir _)).2
      cases hmkdir : d₂.mkdir ((y.target a).rung (k + 1)) with
      | ok d₃ =>
        obtain ⟨-, hyields, hmade⟩ := hstands.mkdir_rung hk hmkdir
        exact Laid.safe h₀ ⟨(hall hd₂).trans hyields, fun _ => rfl, fun _ => hmade⟩
      | error e' =>
        refine h₀.safe_lookAgain hk (hall hd₂) (fun hp d₃ hd₃ => ?_) e'
        have hmade : y.Made a k d₂ := (h.made rfl).yields (h.yields.stands h₀) hd₂
        rcases y.lead_cases a (k + 1) with hfront | ⟨cs, hne, hcs, hlead⟩
        · rw [(hd₁.stands h₀).stat_rung (hp.yields hd₁) hk hfront] at hstat
          cases hstat
        · obtain ⟨cs, c, rfl⟩ := (List.eq_nil_or_concat cs).resolve_left hne
          rw [List.concat_eq_append] at hcs hlead
          rcases hstands.mkdir_or_directory (hp.yields (hall hd₂)) hk hmade hcs hlead with ⟨d', hd'⟩ | hdir
          · rw [hmkdir] at hd'
            cases hd'
          · have hd₃' := (hall hd₂).trans hd₃
            exact (hd₃'.stands h₀).lstat_rung (hp.yields hd₃') hk hcs hlead (hd₃.directory _ hdir)

theorem Stands.safe_rungs (h₀ : y.Stands d₀) (k : Nat) (hk : k ≤ (y.target a).above.length)
    (hd : y.Yields a d₀ d) :
    (ensureCalls ((y.target a).rungs k)).Safe (y.Yields a) (y.Changes a) (y.Laid a d₀ k) d := by
  induction k generalizing d with
  | zero => exact Laid.safe h₀ ⟨hd, fun _ => rfl, fun _ => (hd.stands h₀).made_zero a⟩
  | succ k ih =>
    refine .call (fun d' _ => .refl y a d') fun d' hd' => ?_
    have hall := hd.trans hd'
    have hstands := hall.stands h₀
    show (seenOrMake _ _ (d'.stat _)).Safe _ _ _ d'
    cases hstat : d'.stat ((y.target a).rung (k + 1)) with
    | error e =>
      refine (ih (Nat.le_of_succ_le hk) hall).bind (.refl y a) fun r d₁ hr => ?_
      exact h₀.safe_makeInside hk hall hstat hr
    | ok n =>
      have hfailed : n ≠ .directory → (Writing.done (.error ⟨"mkdir", (y.target a).rung (k + 1), .notDirectory⟩)).Safe
          (y.Yields a) (y.Changes a) (y.Laid a d₀ (k + 1)) d' :=
        fun hne => Laid.safe h₀ ⟨hall, fun hp => absurd (hstands.directory_of_stat (hp.yields hall) hk hstat) hne, nofun⟩
      cases n with
      | directory => exact Laid.safe h₀ ⟨hall, fun _ => rfl, fun _ => hstands.made_of_stat hk hstat⟩
      | file => exact hfailed (by simp)
      | link => exact hfailed (by simp)

theorem Stands.safe_dir_nil (h₀ : y.Stands d₀) (habove : (y.target a).above = []) (hd : y.Yields a d₀ d) :
    (ensureCalls [(y.target a).dir]).Safe (y.Yields a) (y.Changes a) (y.Laid a d₀ 0) d := by
  have hfind : ∀ {d' : Disk}, y.Stands d' → Admissible (y.target a).dir →
      ∃ P, d'.find true (y.target a).dir = .ok (.node P .directory) := by
    intro d' hd' hadm
    obtain ⟨P, hP⟩ := hd'.made_zero a
    refine ⟨P, OutputPath.find_dir.2 ⟨hadm, ?_⟩⟩
    rw [hd'.start_target, habove]
    exact hP
  have hdone : ∀ {d' : Disk} {r : Except FileError Unit}, y.Yields a d₀ d' → (y.Pavable a d₀ → r = .ok ()) →
      (Writing.done r).Safe (y.Yields a) (y.Changes a) (y.Laid a d₀ 0) d' :=
    fun hd' hr => Laid.safe h₀ ⟨hd', hr, fun _ => (hd'.stands h₀).made_zero a⟩
  refine .call (fun d' _ => .refl y a d') fun d' hd' => ?_
  have hall := hd.trans hd'
  have hseen : y.Pavable a d₀ → d'.stat (y.target a).dir = .ok .directory := by
    intro hp
    obtain ⟨P, hP⟩ := hfind (hall.stands h₀) hp.admissible
    exact stat_of_find hP
  show (seenOrMake _ _ (d'.stat _)).Safe _ _ _ d'
  cases hstat : d'.stat (y.target a).dir with
  | ok n =>
    rw [hstat] at hseen
    cases n with
    | directory => exact hdone hall fun _ => rfl
    | file => exact hdone hall fun hp => nomatch hseen hp
    | link => exact hdone hall fun hp => nomatch hseen hp
  | error e =>
    rw [hstat] at hseen
    have hnever : ∀ {d₂ d₃ : Disk}, y.Stands d₂ → d₂.mkdir (y.target a).dir ≠ .ok d₃ := by
      intro d₂ d₃ hd₂ hmade
      obtain ⟨q, asDirectory, hf, -⟩ := mkdir_eq_ok hmade
      obtain ⟨P, hP⟩ := hfind hd₂ (find_eq_ok_iff.1 hf).1
      rcases find_nofollow hP with hnode | ⟨q', target, hlink⟩
      · cases hnode.symm.trans hf
      · cases hlink.symm.trans hf
    refine .call (fun d₂ hd₂ => ?_) fun d₂ hd₂ => ?_
    · show y.Changes a d₂ (DiskCall.changed d₂ (d₂.mkdir _)).2
      cases hmkdir : d₂.mkdir (y.target a).dir with
      | error e' => exact .refl y a d₂
      | ok d₃ => exact absurd hmkdir (hnever ((hall.trans hd₂).stands h₀))
    · show (madeOrSeen _ (DiskCall.changed d₂ (d₂.mkdir _)).1).Safe _ _ _ (DiskCall.changed d₂ (d₂.mkdir _)).2
      cases hmkdir : d₂.mkdir (y.target a).dir with
      | ok d₃ => exact absurd hmkdir (hnever ((hall.trans hd₂).stands h₀))
      | error e' =>
        refine .call (fun d₃ _ => .refl y a d₃) fun d₃ hd₃ => ?_
        show (lookAgain e' (d₃.lstat _)).Safe _ _ _ d₃
        have hlast := (hall.trans hd₂).trans hd₃
        rcases d₃.lstat (y.target a).dir with e'' | n
        · exact hdone hlast fun hp => nomatch hseen hp
        · cases n <;> exact hdone hlast fun hp => nomatch hseen hp

theorem Stands.safe_dir (h₀ : y.Stands d₀) (hd : y.Yields a d₀ d) :
    (ensureCalls ((y.target a).dir :: (parentsFrom [] (y.target a).dir).reverse)).Safe
      (y.Yields a) (y.Changes a) (y.Laid a d₀ (y.target a).above.length) d := by
  rw [OutputPath.ladder_eq]
  split
  · rename_i habove
    rw [habove]
    exact h₀.safe_dir_nil habove hd
  · exact h₀.safe_rungs _ (Nat.le_refl _) hd

theorem Stands.opens_of_made (h : y.Stands d) (hmade : y.Made a (y.target a).above.length d) :
    (y.target a).Opens d (y.seat a) := by
  obtain ⟨P, hP⟩ := hmade
  rw [← h.start_target a] at hP
  obtain ⟨rfl, -⟩ := h.opens_iff.1 hP
  exact hP

/-- Where the directories of a file could be made, nothing but directories stood in the way. -/
theorem Laid.pavable (h₀ : y.Stands d₀) (h : y.Laid a d₀ (y.target a).above.length (.ok ()) d)
    (hadm : Admissible (y.target a).dir) : y.Pavable a d₀ := by
  have hstands := h.yields.stands h₀
  obtain ⟨-, hnames, hdir⟩ := hstands.opens_iff.1 (hstands.opens_of_made (h.made rfl))
  refine ⟨hadm, hnames, fun q hq => ?_⟩
  have hq' : d.node? q = some .directory := by
    obtain ⟨rest, hrest⟩ := hq.2.2
    rw [seat, place, List.append_assoc, ← hrest] at hdir
    exact hstands.tree.directory_of_append hdir
  rcases h.yields.way q hq with hsame | ⟨hnone, -⟩
  · exact .inr (hsame.symm.trans hq')
  · exact .inl hnone

end Yard

end ShaderForge
