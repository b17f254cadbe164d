import Mathlib.Data.List.Sort
import Mathlib.Data.List.Forall2
import ShaderForge.Dict

/-!
# ShaderForge.Proofs.Tables

What the rest of the theory needs of sorting, of dictionaries and of traversals that may fail.

* `sortBy_perm`, `sortBy_pairwise` — sorting rearranges, and the result ascends.
* `Dict.ofList_of_perm` — a dictionary is rebuilt from its entries, in whatever order they come.
* `Dict.get?_insert`, `Dict.ext_get?` — a dictionary is what look-ups give.
* `forall₂_of_mapM`, `foldlM_of_forall₂`, `foldlM_keeps` — traversals, element by element.
* `Ends` — what is known of a result and of a failure, through binds and traversals.
-/

namespace ShaderForge

/-! ## Sorting -/

section Sorting

variable {α : Type} {below : α → α → Bool}

theorem insertBy_perm (a : α) (l : List α) : (insertBy below a l).Perm (a :: l) := by
  induction l with
  | nil => exact List.Perm.refl _
  | cons b l ih =>
    rw [insertBy]
    split
    · exact List.Perm.refl _
    · exact (ih.cons b).trans (List.Perm.swap a b l)

variable (below) in
theorem foldl_insertBy_perm (l sorted : List α) :
    (l.foldl (fun sorted a => insertBy below a sorted) sorted).Perm (l ++ sorted) := by
  induction l generalizing sorted with
  | nil => exact List.Perm.refl _
  | cons a l ih =>
    rw [List.foldl_cons]
    exact (ih _).trans (((insertBy_perm a sorted).append_left l).trans List.perm_middle)

theorem sortBy_perm (l : List α) : (sortBy below l).Perm l := by
  have h := foldl_insertBy_perm below l []
  rwa [List.append_nil] at h

theorem sortBy_map {β : Type} {f : α → β} {below' : β → β → Bool}
    (h : ∀ a b, below' (f a) (f b) = below a b) (l : List α) :
    sortBy below' (l.map f) = (sortBy below l).map f := by
  have hinsert : ∀ a sorted, insertBy below' (f a) (List.map f sorted) =
      (insertBy below a sorted).map f := by
    intro a sorted
    induction sorted with
    | nil => rfl
    | cons b sorted ih =>
      simp only [List.map_cons, insertBy, h, ih]
      split <;> rfl
  suffices hfold : ∀ sorted, (l.map f).foldl (fun sorted a => insertBy below' a sorted)
      (List.map f sorted) = (l.foldl (fun sorted a => insertBy below a sorted) sorted).map f from
    hfold []
  induction l with
  | nil => exact fun _ => rfl
  | cons a l ih =>
    intro sorted
    rw [List.map_cons, List.foldl_cons, List.foldl_cons, hinsert, ih]

/-- What sorting by a strict order needs: elements that are not in order may be exchanged. -/
structure Sorts (below : α → α → Bool) : Prop where
  trans : ∀ a b c, below a b = false → below b c = false → below a c = false
  asymm : ∀ a b, below a b = true → below b a = false

theorem insertBy_pairwise (h : Sorts below) (a : α) {l : List α}
    (hl : l.Pairwise fun x y => below y x = false) :
    (insertBy below a l).Pairwise fun x y => below y x = false := by
  induction l with
  | nil => exact List.pairwise_singleton _ _
  | cons b l ih =>
    obtain ⟨hb, hl'⟩ := List.pairwise_cons.1 hl
    rw [insertBy]
    split
    · rename_i hab
      refine List.pairwise_cons.2 ⟨?_, hl⟩
      intro x hx
      rcases List.mem_cons.1 hx with rfl | hx
      · exact h.asymm _ _ hab
      · exact h.trans _ _ _ (hb x hx) (h.asymm _ _ hab)
    · rename_i hab
      refine List.pairwise_cons.2 ⟨?_, ih hl'⟩
      intro x hx
      rcases List.mem_cons.1 ((insertBy_perm a l).mem_iff.1 hx) with rfl | hx
      · simpa using hab
      · exact hb x hx

theorem sortBy_pairwise (h : Sorts below) (l : List α) :
    (sortBy below l).Pairwise fun x y => below y x = false := by
  suffices hfold : ∀ sorted : List α, sorted.Pairwise (fun x y => below y x = false) →
      (l.foldl (fun sorted a => insertBy below a sorted) sorted).Pairwise
        fun x y => below y x = false from hfold [] List.Pairwise.nil
  induction l with
  | nil => exact fun _ hs => hs
  | cons a l ih => exact fun sorted hs => ih _ (insertBy_pairwise h a hs)

/-- Elements are sorted by a number, and by a key where the numbers are equal. -/
theorem sorts_numbered {κ : Type} [Key κ] (number : α → Int) (key : α → κ) :
    Sorts fun a b => number a < number b || (number a = number b && Key.below (key a) (key b)) where
  trans a b c hab hbc := by
    simp only [Bool.or_eq_false_iff, Bool.and_eq_false_iff, decide_eq_false_iff_not] at *
    refine ⟨by omega, ?_⟩
    by_cases heq : number a = number c
    · right
      have hab' := hab.2.resolve_left (by omega)
      have hbc' := hbc.2.resolve_left (by omega)
      cases hac : Key.below (key a) (key c) with
      | false => rfl
      | true =>
        cases hba : Key.below (key b) (key a) with
        | false =>
          rw [Key.total _ _ hab' hba] at hac
          rw [hac] at hbc'
          cases hbc'
        | true =>
          rw [Key.trans _ _ _ hba hac] at hbc'
          cases hbc'
    · exact .inl heq
  asymm a b hab := by
    simp only [Bool.or_eq_true, Bool.and_eq_true, decide_eq_true_eq] at hab
    simp only [Bool.or_eq_false_iff, Bool.and_eq_false_iff, decide_eq_false_iff_not]
    rcases hab with hlt | ⟨heq, hbelow⟩
    · exact ⟨by omega, .inl (by omega)⟩
    · refine ⟨by omega, .inr ?_⟩
      cases hba : Key.below (key b) (key a) with
      | false => rfl
      | true =>
        have hcycle := Key.trans _ _ _ hbelow hba
        rw [Key.irrefl] at hcycle
        cases hcycle

end Sorting

/-! ## Dictionaries -/

theorem find?_of_nodup {α κ : Type} [DecidableEq κ] {key : α → κ} {l : List α} (h : (l.map key).Nodup) {a : α}
    (ha : a ∈ l) : l.find? (fun b => key b = key a) = some a := by
  cases hfind : l.find? fun b => key b = key a with
  | none => exact absurd (List.find?_eq_none.1 hfind a ha) (by simp)
  | some b =>
    have hkey : key b = key a := by simpa using List.find?_some hfind
    rw [List.inj_on_of_nodup_map h (List.mem_of_find?_eq_some hfind) ha hkey]

section Dictionaries

variable {κ α : Type} [Key κ] [DecidableEq κ]
variable {k : κ} {l : List (κ × α)} {v : α}

theorem insertEntry_perm (v : α) (h : k ∉ l.map (·.1)) :
    (insertEntry k v l).Perm ((k, v) :: l) := by
  induction l with
  | nil => exact List.Perm.refl _
  | cons e l ih =>
    obtain ⟨k', v'⟩ := e
    simp only [List.map_cons, List.mem_cons, not_or] at h
    rw [insertEntry]
    split
    · exact List.Perm.refl _
    · rw [if_neg h.1]
      exact ((ih h.2).cons _).trans (List.Perm.swap _ _ l)

omit [DecidableEq κ] in
theorem Ascending.nodup (h : Ascending l) : (l.map (·.1)).Nodup := by
  rw [List.Nodup, List.pairwise_map]
  refine h.imp ?_
  intro a b hab heq
  rw [heq, Key.irrefl] at hab
  cases hab

omit [DecidableEq κ] in
theorem Ascending.eq_of_perm {m : List (κ × α)} (hl : Ascending l) (hm : Ascending m) (h : l.Perm m) : l = m := by
  refine h.eq_of_pairwise ?_ hl hm
  intro a b _ _ hab hba
  have hcycle := Key.trans _ _ _ hab hba
  rw [Key.irrefl] at hcycle
  cases hcycle

omit [Key κ] [DecidableEq κ] in
theorem mem_of_lookup [BEq κ] [LawfulBEq κ] (h : l.lookup k = some v) :
    (k, v) ∈ l := by
  obtain ⟨front, back, rfl, -⟩ := List.lookup_eq_some_iff.1 h
  simp

omit [Key κ] [DecidableEq κ] in
theorem lookup_of_mem [BEq κ] [LawfulBEq κ] (hl : (l.map (·.1)).Nodup) (h : (k, v) ∈ l) : l.lookup k = some v := by
  obtain ⟨front, back, rfl⟩ := List.append_of_mem h
  refine List.lookup_eq_some_iff.2 ⟨front, back, rfl, fun e he => ?_⟩
  rw [List.map_append, List.nodup_append] at hl
  have hne := hl.2.2 e.1 (List.mem_map_of_mem he) k (by simp)
  simpa using hne.symm

omit [Key κ] in
theorem lookup_cons_eq_ite (e : κ × α) (l : List (κ × α)) (k : κ) :
    (e :: l).lookup k = if k = e.1 then some e.2 else l.lookup k := by
  rw [List.lookup_cons]
  by_cases h : k = e.1
  · rw [if_pos h, beq_iff_eq.2 h]
  · rw [if_neg h, beq_eq_false_iff_ne.2 h]

theorem lookup_insertEntry (k : κ) (v : α) (l : List (κ × α)) (k' : κ) :
    (insertEntry k v l).lookup k' = if k' = k then some v else l.lookup k' := by
  induction l with
  | nil => rw [insertEntry, lookup_cons_eq_ite]
  | cons e l ih =>
    obtain ⟨k₀, v₀⟩ := e
    rw [insertEntry]
    split
    · rw [lookup_cons_eq_ite]
    · split
      · rename_i heq
        subst heq
        by_cases h : k' = k <;> simp [lookup_cons_eq_ite, h]
      · rename_i hne
        rw [lookup_cons_eq_ite, lookup_cons_eq_ite, ih]
        by_cases h : k' = k
        · subst h
          simp [hne]
        · simp [h]

/-- A key that is there already keeps its place, so what two values share is unchanged. -/
theorem map_insertEntry {β : Type} (g : α → β) (v' : α) (hl : Ascending l) (hget : l.lookup k = some v)
    (hg : g v' = g v) :
    (insertEntry k v' l).map (fun e => (e.1, g e.2)) = l.map fun e => (e.1, g e.2) := by
  induction l with
  | nil => cases hget
  | cons e l ih =>
    obtain ⟨k', w⟩ := e
    obtain ⟨hbelow, hl'⟩ := List.pairwise_cons.1 hl
    by_cases hk : k = k'
    · subst hk
      rw [List.lookup_cons_self, Option.some.injEq] at hget
      subst hget
      simp [insertEntry, Key.irrefl, hg]
    · rw [List.lookup_cons, beq_eq_false_iff_ne.2 hk] at hget
      have hafter : Key.below k k' = false := by
        cases hb : Key.below k k' with
        | false => rfl
        | true =>
          have hcycle := Key.trans _ _ _ hb (hbelow _ (mem_of_lookup hget))
          rw [Key.irrefl] at hcycle
          cases hcycle
      simp only [insertEntry, hafter, hk, if_false, Bool.false_eq_true, List.map_cons, ih hl' hget]

namespace Dict

variable {d : Dict κ α}

theorem get?_eq_some_iff : d.get? k = some v ↔ (k, v) ∈ d.toList :=
  ⟨mem_of_lookup, lookup_of_mem d.ascending.nodup⟩

theorem get?_eq_none_iff : d.get? k = none ↔ k ∉ d.keys := by
  rw [get?, List.lookup_eq_none_iff, keys, List.mem_map]
  constructor
  · rintro h ⟨e, he, rfl⟩
    simpa using h e he
  · intro h e he
    simpa using fun hk => h ⟨e, he, hk.symm⟩

theorem map_toList_insert {β : Type} (g : α → β) (v' : α) (hget : d.get? k = some v) (hg : g v' = g v) :
    (d.insert k v').toList.map (fun e => (e.1, g e.2)) = d.toList.map fun e => (e.1, g e.2) :=
  map_insertEntry g v' d.ascending hget hg

theorem keys_insert (h : k ∈ d.keys) (v : α) : (d.insert k v).keys = d.keys := by
  obtain ⟨⟨k', old⟩, hold, rfl⟩ := List.mem_map.1 h
  have hmap := map_insertEntry (fun _ => ()) v d.ascending (lookup_of_mem d.ascending.nodup hold) rfl
  have hkeys := congrArg (List.map (·.1)) hmap
  rw [List.map_map, List.map_map] at hkeys
  exact hkeys

theorem size_insert (h : k ∈ d.keys) (v : α) : (d.insert k v).size = d.size := by
  have hlen := congrArg List.length (keys_insert h v)
  rwa [keys, keys, List.length_map, List.length_map] at hlen

theorem insert_of_get? (h : d.get? k = some v) : d.insert k v = d := by
  have hmap := map_toList_insert id v h rfl
  simp only [id_eq, Prod.mk.eta, List.map_id'] at hmap
  exact Dict.ext hmap

theorem toList_insert_perm (h : d.get? k = none) (v : α) :
    (d.insert k v).toList.Perm ((k, v) :: d.toList) :=
  insertEntry_perm v (get?_eq_none_iff.1 h)

theorem toList_foldl_insert_perm (h : ((l ++ d.toList).map (·.1)).Nodup) :
    (l.foldl (fun d (e : κ × α) => d.insert e.1 e.2) d).toList.Perm (l ++ d.toList) := by
  induction l generalizing d with
  | nil => exact List.Perm.refl _
  | cons e l ih =>
    have hmid : (l ++ e :: d.toList).Perm (e :: (l ++ d.toList)) := List.perm_middle
    have hnew : e.1 ∉ d.toList.map (·.1) := by
      rw [List.cons_append, List.map_cons, List.nodup_cons] at h
      intro hmem
      exact h.1 (by rw [List.map_append]; exact List.mem_append_right _ hmem)
    have hins : (d.insert e.1 e.2).toList.Perm (e :: d.toList) := insertEntry_perm e.2 hnew
    have hperm := (hins.append_left l).trans hmid
    rw [List.foldl_cons]
    exact (ih (((hperm.map _).nodup_iff).2 h)).trans hperm

theorem ofList_of_perm (h : l.Perm d.toList) :
    ofList l = d := by
  have hnodup : ((l ++ (empty : Dict κ α).toList).map (·.1)).Nodup := by
    rw [show (empty : Dict κ α).toList = [] from rfl, List.append_nil]
    exact ((h.map _).nodup_iff).2 d.ascending.nodup
  have hperm := toList_foldl_insert_perm hnodup
  rw [show (empty : Dict κ α).toList = [] from rfl, List.append_nil] at hperm
  exact Dict.ext (Ascending.eq_of_perm (ofList l).ascending d.ascending (hperm.trans h))

theorem toList_ofList_perm (h : (l.map (·.1)).Nodup) : (ofList l).toList.Perm l := by
  have hnodup : ((l ++ (empty : Dict κ α).toList).map (·.1)).Nodup := by
    rwa [show (empty : Dict κ α).toList = [] from rfl, List.append_nil]
  have hperm := toList_foldl_insert_perm hnodup
  rwa [show (empty : Dict κ α).toList = [] from rfl, List.append_nil] at hperm

theorem get?_insert (d : Dict κ α) (k : κ) (v : α) (k' : κ) :
    (d.insert k v).get? k' = if k' = k then some v else d.get? k' :=
  lookup_insertEntry k v d.toList k'

theorem ext_get? {a b : Dict κ α} (h : ∀ k, a.get? k = b.get? k) : a = b := by
  refine Dict.ext (Ascending.eq_of_perm a.ascending b.ascending ?_)
  refine (List.perm_ext_iff_of_nodup a.ascending.nodup.of_map b.ascending.nodup.of_map).2 fun e => ?_
  obtain ⟨k, v⟩ := e
  rw [← get?_eq_some_iff, ← get?_eq_some_iff, h k]

variable {β : Type}

theorem get?_mapValues (f : κ → α → β) (d : Dict κ α) (k : κ) : (d.mapValues f).get? k = (d.get? k).map (f k) := by
  suffices hlookup : ∀ l : List (κ × α), (l.map fun e => (e.1, f e.1 e.2)).lookup k = (l.lookup k).map (f k) from
    hlookup d.toList
  intro l
  induction l with
  | nil => rfl
  | cons e l ih =>
    rw [List.map_cons, lookup_cons_eq_ite, lookup_cons_eq_ite, ih]
    by_cases h : k = e.1
    · subst h
      simp
    · rw [if_neg h, if_neg h]

theorem mapValues_ofList (f : κ → α → β) (h : (l.map (·.1)).Nodup) :
    (ofList l).mapValues f = ofList (l.map fun e => (e.1, f e.1 e.2)) :=
  (ofList_of_perm ((toList_ofList_perm h).symm.map _)).symm

theorem get?_foldl_insert (f : κ → α → α) (hl : (l.map (·.1)).Nodup) (d : Dict κ α) (k : κ) :
    (l.foldl (fun d (e : κ × α) => d.insert e.1 (f e.1 e.2)) d).get? k = ((l.lookup k).map (f k)).or (d.get? k) := by
  induction l generalizing d with
  | nil => rfl
  | cons e l ih =>
    rw [List.map_cons, List.nodup_cons] at hl
    rw [List.foldl_cons, ih hl.2, get?_insert, lookup_cons_eq_ite]
    by_cases h : k = e.1
    · subst h
      have hnone : l.lookup e.1 = none := by
        refine List.lookup_eq_none_iff.2 fun x hx => ?_
        simpa using fun heq : e.1 = x.1 => hl.1 (heq ▸ List.mem_map_of_mem hx)
      simp [hnone]
    · rw [if_neg h, if_neg h]

theorem foldl_insert_of_perm (f : κ → α → α) (h : l.Perm d.toList) :
    l.foldl (fun d (e : κ × α) => d.insert e.1 (f e.1 e.2)) d = d.mapValues f := by
  have hl : (l.map (·.1)).Nodup := ((h.map _).nodup_iff).2 d.ascending.nodup
  refine ext_get? fun k => ?_
  have hlookup : l.lookup k = d.get? k := by
    refine Option.ext fun v => ?_
    rw [get?_eq_some_iff, ← h.mem_iff]
    exact ⟨mem_of_lookup, lookup_of_mem hl⟩
  rw [get?_foldl_insert f hl, get?_mapValues, hlookup]
  cases d.get? k <;> rfl

end Dict

end Dictionaries

/-! ## Traversals that may fail -/

section Traversals

variable {ε α β γ : Type}
variable {x : Except ε α} {f : β → α → Except ε β}

theorem bind_eq_ok_iff {f : α → Except ε β} {b : β} :
    (x >>= f) = .ok b ↔ ∃ a, x = .ok a ∧ f a = .ok b := by
  cases x with
  | error e => simp [bind, Except.bind]
  | ok a => simp [bind, Except.bind]

theorem forall₂_of_mapM {f : α → Except ε β} {l : List α} {r : List β} (h : l.mapM f = .ok r) :
    List.Forall₂ (fun a b => f a = .ok b) l r := by
  induction l generalizing r with
  | nil =>
    rw [List.mapM_nil] at h
    cases h
    exact .nil
  | cons a l ih =>
    rw [List.mapM_cons] at h
    obtain ⟨b, hb, h⟩ := bind_eq_ok_iff.1 h
    obtain ⟨bs, hbs, h⟩ := bind_eq_ok_iff.1 h
    cases h
    exact .cons hb (ih hbs)

theorem exists_of_forall₂ {R : α → β → Prop} {l : List α} {r : List β} (h : List.Forall₂ R l r) :
    (∀ b ∈ r, ∃ a ∈ l, R a b) ∧ ∀ a ∈ l, ∃ b ∈ r, R a b := by
  induction h with
  | nil => simp
  | @cons a b l r hab _ ih =>
    obtain ⟨hleft, hright⟩ := ih
    constructor
    · intro c hc
      rcases List.mem_cons.1 hc with rfl | hc
      · exact ⟨a, List.mem_cons_self, hab⟩
      · obtain ⟨e, he, hec⟩ := hleft c hc
        exact ⟨e, List.mem_cons_of_mem _ he, hec⟩
    · intro c hc
      rcases List.mem_cons.1 hc with rfl | hc
      · exact ⟨b, List.mem_cons_self, hab⟩
      · obtain ⟨e, he, hec⟩ := hright c hc
        exact ⟨e, List.mem_cons_of_mem _ he, hec⟩

theorem exists_of_mapM {f : α → Except ε β} {l : List α} {r : List β} (h : l.mapM f = .ok r) :
    (∀ b ∈ r, ∃ a ∈ l, f a = .ok b) ∧ ∀ a ∈ l, ∃ b ∈ r, f a = .ok b :=
  exists_of_forall₂ (forall₂_of_mapM h)

theorem mapM_eq_ok {f : α → Except ε β} {l : List α} (h : ∀ a ∈ l, ∃ b, f a = .ok b) :
    ∃ r, l.mapM f = .ok r := by
  induction l with
  | nil => exact ⟨[], rfl⟩
  | cons a l ih =>
    obtain ⟨b, hb⟩ := h a List.mem_cons_self
    obtain ⟨r, hr⟩ := ih fun a ha => h a (List.mem_cons_of_mem _ ha)
    refine ⟨b :: r, ?_⟩
    rw [List.mapM_cons, hb, hr]
    rfl

/-- Lists without repetition that have nothing in common are put together to one without repetition. -/
theorem exists_mapM_flatten {f : α → Except ε (List β)} {Q : α → β → Prop} {l : List α}
    (h : ∀ a ∈ l, ∃ bs, f a = .ok bs ∧ bs.Nodup ∧ ∀ b, b ∈ bs ↔ Q a b)
    (hdisjoint : l.Pairwise fun a a' => ∀ b, Q a b → ¬ Q a' b) :
    ∃ r, l.mapM f = .ok r ∧ r.flatten.Nodup ∧ ∀ b, b ∈ r.flatten ↔ ∃ a ∈ l, Q a b := by
  induction l with
  | nil => exact ⟨[], rfl, List.nodup_nil, by simp⟩
  | cons a l ih =>
    obtain ⟨bs, hbs, hnodup, hmem⟩ := h a List.mem_cons_self
    obtain ⟨hfirst, hrest⟩ := List.pairwise_cons.1 hdisjoint
    obtain ⟨r, hr, hrnodup, hrmem⟩ := ih (fun a ha => h a (List.mem_cons_of_mem _ ha)) hrest
    refine ⟨bs :: r, ?_, ?_, fun b => ?_⟩
    · rw [List.mapM_cons, hbs, hr]
      rfl
    · rw [List.flatten_cons, List.nodup_append']
      refine ⟨hnodup, hrnodup, fun b hb hb' => ?_⟩
      obtain ⟨a', ha', hQ⟩ := (hrmem b).1 hb'
      exact hfirst a' ha' b ((hmem b).1 hb) hQ
    · rw [List.flatten_cons, List.mem_append, hmem, hrmem]
      simp

theorem foldlM_keeps {P : β → Prop} {l : List α} (hstep : ∀ b, ∀ a ∈ l, ∀ b', P b → f b a = .ok b' → P b') {b b' : β}
    (hb : P b) (h : l.foldlM f b = .ok b') : P b' := by
  induction l generalizing b with
  | nil =>
    cases h
    exact hb
  | cons a l ih =>
    rw [List.foldlM_cons] at h
    obtain ⟨c, hc, h⟩ := bind_eq_ok_iff.1 h
    exact ih (fun b a ha => hstep b a (List.mem_cons_of_mem _ ha)) (hstep b a List.mem_cons_self c hb hc) h

theorem foldl_of_fixed {f : β → α → β} {l : List α} {b : β} (h : ∀ a ∈ l, f b a = b) : l.foldl f b = b := by
  induction l with
  | nil => rfl
  | cons a l ih =>
    rw [List.foldl_cons, h a List.mem_cons_self]
    exact ih fun c hc => h c (List.mem_cons_of_mem _ hc)

theorem foldlM_of_ok {b b' : β} {a : α} (h : f b a = .ok b') (l : List α) :
    (a :: l).foldlM f b = l.foldlM f b' := by
  rw [List.foldlM_cons, h]
  rfl

theorem foldlM_append_of_ok {b b' : β} {l : List α} (h : l.foldlM f b = .ok b') (m : List α) :
    (l ++ m).foldlM f b = m.foldlM f b' := by
  rw [List.foldlM_append, h]
  rfl

theorem foldlM_of_forall₂ {g : β → γ → β} {l : List α} {m : List γ}
    (h : List.Forall₂ (fun a c => ∀ b, f b a = .ok (g b c)) l m) (b : β) :
    l.foldlM f b = .ok (m.foldl g b) := by
  induction h generalizing b with
  | nil => rfl
  | cons hac _ ih => rw [foldlM_of_ok (hac b), ih, List.foldl_cons]

/-- The result is as `P` says, the failure as `Q` says. -/
def Ends (P : α → Prop) (Q : ε → Prop) : Except ε α → Prop
  | .ok a => P a
  | .error e => Q e

namespace Ends

variable {P : α → Prop} {P' : β → Prop} {Q : ε → Prop}

theorem ok (h : Ends P Q x) {a : α} (hx : x = .ok a) : P a := by
  subst hx
  exact h

theorem error (h : Ends P Q x) {e : ε} (hx : x = .error e) : Q e := by
  subst hx
  exact h

theorem imp {R : α → Prop} (h : Ends P Q x) (hPR : ∀ a, P a → R a) : Ends R Q x := by
  cases x with
  | ok a => exact hPR a h
  | error e => exact h

theorem bind {f : α → Except ε β} (hx : Ends P Q x) (hf : ∀ a, P a → Ends P' Q (f a)) :
    Ends P' Q (x >>= f) := by
  cases x with
  | ok a => exact hf a hx
  | error e => exact hx

theorem foldlM {l : List α} (hstep : ∀ b, ∀ a ∈ l, P' b → Ends P' Q (f b a)) {b : β} (hb : P' b) :
    Ends P' Q (l.foldlM f b) := by
  induction l generalizing b with
  | nil => exact hb
  | cons a l ih =>
    rw [List.foldlM_cons]
    refine (hstep b a List.mem_cons_self hb).bind fun c hc => ?_
    exact ih (fun b a ha => hstep b a (List.mem_cons_of_mem _ ha)) hc

theorem mapM {f : α → Except ε β} {l : List α} (hf : ∀ a ∈ l, Ends P' Q (f a)) :
    Ends (fun r => ∀ b ∈ r, P' b) Q (l.mapM f) := by
  induction l with
  | nil =>
    rw [List.mapM_nil]
    intro b hb
    cases hb
  | cons a l ih =>
    rw [List.mapM_cons]
    refine (hf a List.mem_cons_self).bind fun b hb => ?_
    refine (ih fun a ha => hf a (List.mem_cons_of_mem _ ha)).bind fun bs hbs => ?_
    intro c hc
    rcases List.mem_cons.1 hc with rfl | hc
    · exact hb
    · exact hbs c hc

end Ends

end Traversals

end ShaderForge
