import Mathlib.Data.List.Nodup
import ShaderForge.Proofs.Files.Unpacking
import ShaderForge.Proofs.Tables

/-!
# ShaderForge.Proofs.Files.Listing

What directories list, and the paths of what they list.

* `Path.join_ofComponents`, `Path.join_join` — names joined to a path one after the other, or all at once.
* `Disk.Proper`   — a tree in which every name can be written in a path.
* `Disk.Proper.mem_list`, `Disk.Proper.nodup_list` — a directory lists what stands in it, each entry once.
* `Disk.find_join_directory` — a directory in a directory is found under its name.
-/

namespace ShaderForge

open Bytes (slash)

namespace Path

theorem cleaned_append (rooted : Bool) (cs : List Bytes) {bs : List Bytes} (h : ∀ b ∈ bs, Plain b) :
    cleaned rooted (cs ++ bs) = cleaned rooted cs ++ bs := by
  have hnamed : ∀ b ∈ bs, b ≠ [] ∧ b ≠ dot ∧ b ≠ dotDot :=
    fun b hb => ⟨(h b hb).ne_nil, (h b hb).ne_dot, (h b hb).ne_dotDot⟩
  rw [cleaned, List.foldl_append, foldl_cleanStep_of_named hnamed, List.reverse_append, List.reverse_reverse, cleaned]

theorem cleaned_of_plain (rooted : Bool) {bs : List Bytes} (h : ∀ b ∈ bs, Plain b) : cleaned rooted bs = bs :=
  cleaned_append rooted [] h

theorem cleanComponents_ofComponents {rooted : Bool} {cs : List Bytes} (hclean : cleaned rooted cs = cs)
    (hslash : ∀ c ∈ cs, slash ∉ c) : cleanComponents (ofComponents rooted cs) = cs := by
  have habs : isAbsolute (ofComponents rooted cs) = rooted := by
    refine OutputPath.isAbsolute_ofComponents fun c hc => ⟨?_, hslash c hc⟩
    rw [← hclean] at hc
    exact ne_nil_of_mem_cleaned hc
  rw [cleanComponents, habs]
  by_cases hnil : cs = []
  · subst hnil
    cases rooted <;> decide
  · rw [components_ofComponents rooted hnil hslash]
    conv_rhs => rw [← hclean]
    cases rooted <;> simp [cleaned, cleanStep]

section Join

variable {p : Path} {bs cs : List Bytes}

theorem ofComponents_ne_nil (h : ∀ b ∈ bs, Plain b) : ofComponents false bs ≠ [] := by
  by_cases hbs : bs = []
  · subst hbs
    decide
  · intro hnil
    have hcomponents := components_ofComponents false hbs fun b hb => (h b hb).no_slash
    rw [hnil, show components [] = [[]] by decide, if_neg (by decide), List.nil_append] at hcomponents
    exact (h [] (by rw [← hcomponents]; simp)).ne_nil rfl

theorem foldl_components_ofComponents (h : ∀ b ∈ bs, Plain b) (rooted : Bool) (above : List Bytes) :
    (components (ofComponents false bs)).foldl (cleanStep rooted) above = bs.reverse ++ above := by
  by_cases hbs : bs = []
  · subst hbs
    simp [show components (ofComponents false []) = [dot] by decide, cleanStep]
  · rw [components_ofComponents false hbs fun b hb => (h b hb).no_slash]
    exact foldl_cleanStep_of_named (fun b hb => ⟨(h b hb).ne_nil, (h b hb).ne_dot, (h b hb).ne_dotDot⟩) above

theorem join_ofComponents (p : Path) (h : ∀ b ∈ bs, Plain b) :
    join p (ofComponents false bs) = ofComponents (isAbsolute p) (cleanComponents p ++ bs) := by
  have hne := ofComponents_ne_nil h
  by_cases hp : p = []
  · subst hp
    have habs : isAbsolute (ofComponents false bs) = false :=
      OutputPath.isAbsolute_ofComponents fun b hb => ⟨(h b hb).ne_nil, (h b hb).no_slash⟩
    have hjoin : join [] (ofComponents false bs) = clean (ofComponents false bs) := by
      simp [join, joinAll, hne, Bytes.join]
    rw [hjoin, clean, cleanComponents, habs, foldl_components_ofComponents h]
    simp [isAbsolute, show cleanComponents [] = [] by decide]
  · rw [join_eq_clean hp hne, clean, cleanComponents, isAbsolute_append hp, components_append_slash, List.foldl_append,
      foldl_components_ofComponents h, List.reverse_append, List.reverse_reverse]
    rfl

theorem no_slash_of_mem (h : ∀ b ∈ bs, Plain b) : ∀ c ∈ cleanComponents p ++ bs, slash ∉ c := by
  intro c hc
  rcases List.mem_append.1 hc with hc | hc
  · exact no_slash_of_mem_components (mem_of_mem_cleaned hc)
  · exact (h c hc).no_slash

theorem cleaned_cleanComponents_append (h : ∀ b ∈ bs, Plain b) :
    cleaned (isAbsolute p) (cleanComponents p ++ bs) = cleanComponents p ++ bs := by
  rw [cleaned_append _ _ h]
  exact congrArg (· ++ bs) (cleaned_cleaned _ _)

theorem cleanComponents_join (h : ∀ b ∈ bs, Plain b) :
    cleanComponents (join p (ofComponents false bs)) = cleanComponents p ++ bs := by
  rw [join_ofComponents p h]
  exact cleanComponents_ofComponents (cleaned_cleanComponents_append h) (no_slash_of_mem h)

theorem isAbsolute_join_ofComponents (h : ∀ b ∈ bs, Plain b) :
    isAbsolute (join p (ofComponents false bs)) = isAbsolute p := by
  rw [join_ofComponents p h]
  refine OutputPath.isAbsolute_ofComponents fun c hc => ⟨?_, no_slash_of_mem h c hc⟩
  rw [← cleaned_cleanComponents_append h] at hc
  exact ne_nil_of_mem_cleaned hc

theorem clean_join (h : ∀ b ∈ bs, Plain b) :
    clean (join p (ofComponents false bs)) = join p (ofComponents false bs) := by
  rw [clean, cleanComponents_join h, isAbsolute_join_ofComponents h, ← join_ofComponents p h]

theorem join_join (hb : ∀ b ∈ bs, Plain b) (hc : ∀ c ∈ cs, Plain c) :
    join (join p (ofComponents false bs)) (ofComponents false cs) = join p (ofComponents false (bs ++ cs)) := by
  rw [join_ofComponents _ hc, cleanComponents_join hb, isAbsolute_join_ofComponents hb,
    join_ofComponents p (List.forall_mem_append.2 ⟨hb, hc⟩), List.append_assoc]

end Join

theorem length_join_le (sep : Bytes) {cs : List Bytes} (h : ∀ c ∈ cs, c ≠ []) :
    cs.length ≤ (Bytes.join sep cs).length := by
  induction cs with
  | nil => exact Nat.zero_le _
  | cons c cs ih =>
    have hc := List.length_pos_iff.2 (h c List.mem_cons_self)
    have hrest := ih fun b hb => h b (List.mem_cons_of_mem _ hb)
    cases cs with
    | nil => exact hc
    | cons b cs =>
      rw [Bytes.join, List.length_append, List.length_append, List.length_cons]
      omega

theorem length_ofComponents_le {rooted : Bool} {cs : List Bytes} (h : ∀ c ∈ cs, c ≠ []) :
    cs.length ≤ (ofComponents rooted cs).length := by
  have hjoin := length_join_le [slash] h
  unfold ofComponents
  split
  · rw [List.length_cons]
    omega
  split
  · rename_i hnil
    rw [hnil]
    exact Nat.zero_le _
  · exact hjoin

end Path

namespace Disk

variable {d : Disk} {place : Place} {c : Bytes} {n : Node}

instance (x : Bytes) : Decidable (Path.Plain x) :=
  decidable_of_iff (x ≠ [] ∧ x ≠ Path.dot ∧ x ≠ Path.dotDot ∧ slash ∉ x)
    ⟨fun ⟨hnil, hdot, hup, hslash⟩ => ⟨hnil, hdot, hup, hslash⟩,
      fun h => ⟨h.ne_nil, h.ne_dot, h.ne_dotDot, h.no_slash⟩⟩

instance (x : Bytes) : Decidable (FileName x) :=
  decidable_of_iff (Path.Plain x ∧ x.length ≤ maxName ∧ 0 ∉ x)
    ⟨fun ⟨hplain, hshort, hnul⟩ => ⟨hplain, hshort, hnul⟩, fun h => ⟨h.plain, h.short, h.no_nul⟩⟩

/-- A tree in which no place is listed twice and every name can be written in a path. -/
structure Proper (d : Disk) : Prop where
  tree : d.IsTree
  nodup : (d.nodes.map (·.1)).Nodup
  names : ∀ e ∈ d.nodes, ∀ c ∈ e.1, FileName c

theorem mem_nodes (hplace : place ≠ []) (hn : d.node? place = some n) : (place, n) ∈ d.nodes := by
  rw [node?, if_neg hplace] at hn
  exact mem_of_lookup hn

namespace Proper

theorem of_parents (hparents : ∀ e ∈ d.nodes, d.node? e.1.dropLast = some .directory)
    (hnodup : (d.nodes.map (·.1)).Nodup) (hnames : ∀ e ∈ d.nodes, ∀ c ∈ e.1, FileName c) : d.Proper :=
  ⟨.of_parents hparents, hnodup, hnames⟩

theorem node?_eq_some_iff (h : d.Proper) : d.node? (place ++ [c]) = some n ↔ (place ++ [c], n) ∈ d.nodes := by
  rw [node?, if_neg (by simp)]
  exact ⟨mem_of_lookup, lookup_of_mem h.nodup⟩

theorem fileName (h : d.Proper) {below : List Bytes} (hn : d.node? (place ++ below) = some n) :
    ∀ c ∈ below, FileName c := by
  intro c hc
  have hmem := mem_nodes (List.append_ne_nil_of_right_ne_nil place (List.ne_nil_of_mem hc)) hn
  exact h.names _ hmem c (List.mem_append_right _ hc)

theorem listed_eq_some_iff {p : Place} {n' : Node} :
    (match p.getLast? with
      | some name => if p.dropLast = place then some (name, n') else none
      | none => none) = some (c, n) ↔ (p, n') = (place ++ [c], n) := by
  constructor
  · intro hlisted
    split at hlisted
    · rename_i name hname
      obtain ⟨front, rfl⟩ := List.getLast?_eq_some_iff.1 hname
      rw [List.dropLast_concat] at hlisted
      split at hlisted
      · rename_i hfront
        cases hlisted
        rw [hfront]
      · cases hlisted
    · cases hlisted
  · intro heq
    cases heq
    simp

theorem mem_list (h : d.Proper) : (c, n) ∈ d.list place ↔ d.node? (place ++ [c]) = some n := by
  rw [list, (sortBy_perm _).mem_iff, List.mem_filterMap, h.node?_eq_some_iff]
  constructor
  · rintro ⟨⟨p, n'⟩, hmem, hlisted⟩
    rwa [listed_eq_some_iff.1 hlisted] at hmem
  · exact fun hmem => ⟨_, hmem, listed_eq_some_iff.2 rfl⟩

theorem nodup_list (h : d.Proper) : (d.list place).Nodup := by
  rw [list, (sortBy_perm _).nodup_iff]
  refine List.Nodup.filterMap (fun e e' listed he he' => ?_) (List.Nodup.of_map _ h.nodup)
  exact (listed_eq_some_iff.1 he).trans (listed_eq_some_iff.1 he').symm

end Proper

theorem Leads.of_nofollow {links : Nat} {rest : List Bytes} {q : Place}
    (h : d.Leads false links place rest (.node q .directory)) : d.Leads true links place rest (.node q .directory) := by
  generalize hq : Found.node q .directory = f at h
  induction h with
  | here hn => exact .here hn
  | stay hdir hc _ ih => exact .stay hdir hc (ih hq)
  | up hdir _ ih => exact .up hdir (ih hq)
  | down hdir hc hn hlink _ ih => exact .down hdir hc hn hlink (ih hq)
  | jump hdir hc hn _ _ ih => exact .jump hdir hc hn (.inr rfl) (ih hq)
  | link => cases hq
  | vacant => cases hq

/-- A directory that is found without following a link is found by following links too. -/
theorem find_follow {p : Path} {q : Place} (h : d.find false p = .ok (.node q .directory)) :
    d.find true p = .ok (.node q .directory) := by
  obtain ⟨hp, hleads⟩ := find_eq_ok_iff.1 h
  exact find_eq_ok_iff.2 ⟨hp, hleads.of_nofollow⟩

theorem readDir_of_find {p : Path} {q : Place} (h : d.find true p = .ok (.node q .directory)) :
    d.readDir p = .ok (d.list q) := by
  rw [readDir, inspect, h]

theorem find_join_directory {dir : Path} {P : Place} (hdir : d.find true (Path.clean dir) = .ok (.node P .directory))
    (hc : FileName c) (hroom : (Path.join dir c).length < maxPath) (hn : d.node? (P ++ [c]) = some .directory) :
    d.find true (Path.join dir c) = .ok (.node (P ++ [c]) .directory) := by
  refine find_join hdir hc hroom fun links => ?_
  exact .down (node?_of_find hdir) (hc.plain.names hc.short) hn (by simp) (.here hn)

end Disk

end ShaderForge
