import ShaderForge.Json.Reader
import ShaderForge.Json.Writer
import ShaderForge.Proofs.Text.Bytes
import ShaderForge.Proofs.Text.Utf8

/-!
# ShaderForge.Proofs.Json.RoundTrip

Reading JSON undoes writing it, for values whose strings are valid UTF-8 and whose numbers are integers.

* `exists_marks` — one escaped character, in front of anything.
* `string?_renderString` — a whole string.
* `number?_ofInt` — an integer, in front of what may follow a value.
* `Writable` — the values that are read back; it counts how deep they nest.
* `read?_render` — a text that was written is read as the value it was written from.
* `length_render_object`, `length_render_member` — a text is no shorter than its parts.
-/

namespace ShaderForge
namespace Json

variable {rest : Bytes} {d : Nat} {v : Json} {members : List (Bytes × Json)}

/-! ## Strings -/

theorem stringBody_plain {b : UInt8} (hb : ¬ b < 0x20) (hq : b ≠ Bytes.quote)
    (hs : b ≠ Bytes.backslash) (s : Bytes) :
    stringBody (b :: s) = push (.octet b) (stringBody s) := by
  rw [stringBody.eq_def]
  split
  · rename_i h; cases h
  · rename_i h; cases h; exact absurd rfl hq
  · rename_i h; cases h; exact absurd rfl hs
  · rename_i h; cases h; exact absurd rfl hs
  · rename_i h
    cases h
    simp [hb, hs]

theorem stringBody_letter {letter b : UInt8} (h : unescape? letter = some b) (s : Bytes) :
    stringBody (Bytes.backslash :: letter :: s) = push (.octet b) (stringBody s) := by
  have hu : letter ≠ 0x75 := by
    rintro rfl
    rw [show unescape? 0x75 = none by decide] at h
    cases h
  have heq := stringBody.eq_4 letter s fun _ _ _ _ _ hl => absurd hl hu
  rw [h] at heq
  exact heq

theorem stringBody_unit {a b c d : UInt8} {u : Nat} (h : unit? a b c d = some u) (s : Bytes) :
    stringBody (Bytes.backslash :: 0x75 :: a :: b :: c :: d :: s) =
      push (.unit u) (stringBody s) := by
  have heq := stringBody.eq_3 a b c d s
  rw [h] at heq
  exact heq

theorem stringBody_quote (s : Bytes) : stringBody (Bytes.quote :: s) = some ([], s) := rfl

theorem stringBody_octets {q : Bytes}
    (h : ∀ b ∈ q, ¬ b < 0x20 ∧ b ≠ Bytes.quote ∧ b ≠ Bytes.backslash) (s : Bytes) :
    stringBody (q ++ s) =
      (stringBody s).map fun (marks, rest) => (q.map Mark.octet ++ marks, rest) := by
  induction q with
  | nil =>
    rw [List.nil_append]
    cases stringBody s <;> rfl
  | cons b q ih =>
    obtain ⟨hb, hq, hs⟩ := h b (by simp)
    rw [List.cons_append, stringBody_plain hb hq hs, ih fun c hc => h c (List.mem_cons_of_mem _ hc)]
    cases stringBody s <;> rfl

theorem markText_octets (q : Bytes) (marks : List Mark) :
    markText none (q.map Mark.octet ++ marks) = q ++ markText none marks := by
  induction q with
  | nil => rfl
  | cons b q ih => simp only [List.map_cons, List.cons_append, markText, ih]

theorem unit?_hex {n : Nat} (h : n < 0x10000) :
    unit? (Bytes.hexDigit (n / 4096 % 16)) (Bytes.hexDigit (n / 256 % 16))
      (Bytes.hexDigit (n / 16 % 16)) (Bytes.hexDigit (n % 16)) = some n := by
  have hv : ∀ k, Bytes.hexValue? (Bytes.hexDigit (k % 16)) = some (k % 16) :=
    fun k => Bytes.hexValue?_hexDigit _ (Nat.mod_lt _ (by decide))
  simp only [unit?, hv, Option.bind_eq_bind, Option.bind_some, Option.pure_def, Option.some.injEq]
  omega

/-- What one escaped character adds to a string that is read: marks that stand for the character. -/
structure Marks (c : Char) (marks : List Mark) : Prop where
  read : ∀ s, stringBody (escape c ++ s) =
    (stringBody s).map fun (more, rest) => (marks ++ more, rest)
  text : ∀ more, markText none (marks ++ more) = Utf8.encode c ++ markText none more

theorem marks_letter {c : Char} {letter b : UInt8} (hc : escape c = [Bytes.backslash, letter])
    (hl : unescape? letter = some b) (hb : Utf8.encode c = [b]) : Marks c [.octet b] where
  read s := by
    rw [hc]
    exact stringBody_letter hl s
  text more := by rw [hb]; rfl

theorem marks_unit {c : Char} (hc : escape c = "\\u" ++ Bytes.hex 4 c.toNat) (hn : c.toNat < 0xD800) :
    Marks c [.unit c.toNat] where
  read s := by
    rw [hc, Bytes.hex_four]
    exact stringBody_unit (unit?_hex (by omega)) s
  text more := by
    have hhigh : isHighSurrogate c.toNat = false := by simp [isHighSurrogate]; omega
    have hlow : isLowSurrogate c.toNat = false := by simp [isLowSurrogate]; omega
    simp [markText, unitChar, hhigh, hlow, Char.ofNat_toNat]

theorem marks_plain {c : Char} (hc : escape c = Utf8.encode c) (hlo : 0x20 ≤ c.toNat)
    (hq : c ≠ '"') (hs : c ≠ '\\') : Marks c ((Utf8.encode c).map Mark.octet) where
  read s := by
    rw [hc]
    apply stringBody_octets
    intro b hb
    have hq' : c.val.toNat ≠ 0x22 := fun h => hq (Char.toNat_inj.1 h)
    have hs' : c.val.toNat ≠ 0x5C := fun h => hs (Char.toNat_inj.1 h)
    have hlo' : 0x20 ≤ c.val.toNat := hlo
    have hoct := Utf8.toNat_of_mem_encode hb
    simp only [UInt8.lt_iff_toNat_lt, ne_eq, ← UInt8.toNat_inj, Bytes.quote, Bytes.backslash,
      UInt8.reduceToNat]
    omega
  text more := markText_octets _ more

theorem marks_short {c : Char} (h : c ∈ ['"', '\\', '\x08', '\t', '\n', '\x0c', '\r']) :
    Marks c [.octet (octet c)] := by
  simp only [List.mem_cons, List.not_mem_nil, or_false] at h
  rcases h with rfl | rfl | rfl | rfl | rfl | rfl | rfl <;>
    exact marks_letter rfl (by decide) (by decide)

theorem mem_of_shortEscape? {c letter : Char} (h : shortEscape? c.toNat = some letter) :
    c ∈ ['\x08', '\t', '\n', '\x0c', '\r'] := by
  unfold shortEscape? at h
  simp only [List.mem_cons, ← Char.toNat_inj]
  split at h <;> simp_all

/-- An escaped character is read as marks that stand for it. -/
theorem exists_marks (c : Char) : ∃ marks, Marks c marks := by
  by_cases hq : c = '"'
  · exact ⟨_, marks_short (by simp [hq])⟩
  by_cases hs : c = '\\'
  · exact ⟨_, marks_short (by simp [hs])⟩
  cases hl : shortEscape? c.toNat with
  | some letter =>
    have hc := mem_of_shortEscape? hl
    exact ⟨_, marks_short (List.mem_cons_of_mem _ (List.mem_cons_of_mem _ hc))⟩
  | none =>
    have hescape : escape c =
        if c.toNat < 0x20 || isGuarded c then "\\u" ++ Bytes.hex 4 c.toNat else Utf8.encode c := by
      rw [escape, if_neg (by simp [hq, hs]), hl]
    by_cases hg : (decide (c.toNat < 0x20) || isGuarded c) = true
    · rw [if_pos hg] at hescape
      refine ⟨_, marks_unit hescape ?_⟩
      simp only [isGuarded, Bool.or_eq_true, decide_eq_true_eq] at hg
      rcases hg with hg | (((rfl | rfl) | rfl) | hg) | hg
      · omega
      · decide
      · decide
      · decide
      · omega
      · omega
    · rw [if_neg hg] at hescape
      simp only [Bool.or_eq_true, decide_eq_true_eq, not_or] at hg
      exact ⟨_, marks_plain hescape (by omega) hq hs⟩

/-- Marks of escaped characters, one after another, and the text they stand for. -/
theorem stringBody_flatMap_escape (cs : List Char) (s : Bytes) :
    ∃ marks, stringBody (cs.flatMap escape ++ Bytes.quote :: s) = some (marks, s) ∧
      markText none marks = cs.flatMap Utf8.encode := by
  induction cs with
  | nil => exact ⟨[], stringBody_quote s, rfl⟩
  | cons c cs ih =>
    obtain ⟨more, hmore, htext⟩ := ih
    obtain ⟨marks, hmarks⟩ := exists_marks c
    refine ⟨marks ++ more, ?_, ?_⟩
    · rw [List.flatMap_cons, List.append_assoc, hmarks.read, hmore]
      rfl
    · rw [hmarks.text, htext, List.flatMap_cons]

theorem string?_renderString {t : Bytes} (h : Utf8.isValid t = true) (s : Bytes) :
    ∃ body, renderString t ++ s = Bytes.quote :: (body ++ Bytes.quote :: s) ∧
      string? (body ++ Bytes.quote :: s) = some (t, s) := by
  obtain ⟨marks, hread, htext⟩ := stringBody_flatMap_escape (Utf8.characters t) s
  refine ⟨(Utf8.characters t).flatMap escape, ?_, ?_⟩
  · simp [renderString, Utf8.characters, List.flatMap_map]
  · rw [string?, hread]
    simp only [Option.map_some, htext, Utf8.repair_flatMap_encode]
    rw [Utf8.characters_flatMap_encode h]

/-! ## Numbers -/

/-- What may follow a value in compact text: nothing, a comma or a closing bracket. -/
def Stops : Bytes → Prop
  | [] => True
  | b :: _ => b = 0x2C ∨ b = 0x5D ∨ b = 0x7D

theorem takeWhile_digits {s : Bytes} (hs : ∀ b ∈ s, Bytes.isDigit b = true) (hr : Stops rest) :
    (s ++ rest).takeWhile Bytes.isDigit = s ∧ (s ++ rest).dropWhile Bytes.isDigit = rest := by
  rw [List.takeWhile_append_of_pos hs, List.dropWhile_append_of_pos hs]
  cases rest with
  | nil => simp
  | cons b rest =>
    have hb : Bytes.isDigit b = false := by rcases hr with rfl | rfl | rfl <;> decide
    simp [hb]

theorem integerPart?_ofNat (n : Nat) (hr : Stops rest) :
    integerPart? (Bytes.ofNat n ++ rest) = some (Bytes.ofNat n, rest) := by
  rcases Bytes.ofNat_leading n with h | ⟨b, s, h, hb⟩
  · rw [h]
    rfl
  · obtain ⟨htake, hdrop⟩ := takeWhile_digits (fun b => Bytes.isDigit_of_mem_ofNat (n := n) b) hr
    have hpart : integerPart? (Bytes.ofNat n ++ rest) = digits? (Bytes.ofNat n ++ rest) := by
      rw [h, List.cons_append, integerPart?]
      intro _ hz
      exact absurd (List.cons.inj hz).1 hb
    rw [hpart, digits?, htake, hdrop, h]

theorem fractionPart?_stops (hr : Stops rest) :
    fractionPart? rest = some ([], rest) := by
  cases rest with
  | nil => rfl
  | cons b rest => rcases hr with rfl | rfl | rfl <;> rfl

theorem exponentPart?_stops (hr : Stops rest) :
    exponentPart? rest = some ([], rest) := by
  cases rest with
  | nil => rfl
  | cons b rest => rcases hr with rfl | rfl | rfl <;> rfl

theorem ofNat_front (n : Nat) : ∃ b s, Bytes.ofNat n = b :: s ∧ Bytes.isDigit b = true := by
  cases h : Bytes.ofNat n with
  | nil => exact absurd h (Bytes.ofNat_ne_nil n)
  | cons b s => exact ⟨b, s, rfl, Bytes.isDigit_of_mem_ofNat b (by rw [h]; simp)⟩

theorem number?_ofInt (i : Int) (hr : Stops rest) :
    number? (Bytes.ofInt i ++ rest) = some (Bytes.ofInt i, rest) := by
  cases i with
  | ofNat n =>
    have hsign : ∀ s, Bytes.ofNat n ++ rest ≠ 0x2D :: s := by
      obtain ⟨b, t, h, hb⟩ := ofNat_front n
      rintro s heq
      rw [h, List.cons_append] at heq
      rw [(List.cons.inj heq).1] at hb
      exact absurd hb (by decide)
    simp only [number?, Bytes.ofInt, integerPart?_ofNat n hr, Option.bind_eq_bind,
      Option.bind_some, fractionPart?_stops hr, exponentPart?_stops hr, Option.pure_def,
      List.nil_append, List.append_nil]
  | negSucc n =>
    simp only [number?, Bytes.ofInt, List.cons_append]
    have hminus : octet '-' = 0x2D := by decide
    simp only [hminus, integerPart?_ofNat (n + 1) hr, Option.bind_eq_bind,
      Option.bind_some, fractionPart?_stops hr, exponentPart?_stops hr, Option.pure_def,
      List.append_nil]
    rfl

theorem intOfLiteral?_ofInt {i : Int} (hlo : -0x8000000000000000 ≤ i) (hhi : i < 0x8000000000000000) :
    intOfLiteral? (Bytes.ofInt i) = some i := by
  have hrange : (decide (-0x8000000000000000 ≤ i) && decide (i < 0x8000000000000000)) = true := by
    simp only [Bool.and_eq_true, decide_eq_true_eq]
    exact ⟨hlo, hhi⟩
  cases i with
  | ofNat n =>
    obtain ⟨b, t, h, hb⟩ := ofNat_front n
    have hsign : b ≠ 0x2D := by
      rintro rfl
      exact absurd hb (by decide)
    have hlit : intOfLiteral? (Bytes.ofNat n) = ((Bytes.natOf? (Bytes.ofNat n)).map Int.ofNat).filter
        fun i => -0x8000000000000000 ≤ i && i < 0x8000000000000000 := by
      rw [intOfLiteral?]
      intro _ heq
      rw [h] at heq
      exact hsign (List.cons.inj heq).1
    rw [Bytes.ofInt, hlit, Bytes.natOf?_ofNat, Option.map_some, Option.filter_some, if_pos hrange]
  | negSucc n =>
    rw [Bytes.ofInt, show octet '-' = 0x2D by decide, intOfLiteral?, Bytes.natOf?_ofNat]
    exact Option.filter_some.trans (if_pos hrange)

/-! ## Values -/

/-- Values that are written so that they can be read again; `depth` bounds how deep they nest. -/
inductive Writable : (depth : Nat) → Json → Prop
  | null (d : Nat) : Writable d .null
  | bool (d : Nat) (b : Bool) : Writable d (.bool b)
  | ofInt (d : Nat) (i : Int) : Writable d (.ofInt i)
  | string (d : Nat) {s : Bytes} (h : Utf8.isValid s = true) : Writable d (.string s)
  | array {d : Nat} {items : List Json} (h : ∀ v ∈ items, Writable d v) :
      Writable (d + 1) (.array items)
  | object {d : Nat} {members : List (Bytes × Json)}
      (names : ∀ m ∈ members, Utf8.isValid m.1 = true) (h : ∀ m ∈ members, Writable d m.2) :
      Writable (d + 1) (.object members)

theorem skipSpace_cons {b : UInt8} (h : isSpace b = false) (s : Bytes) :
    skipSpace (b :: s) = b :: s := by
  rw [skipSpace, List.dropWhile_cons_of_neg (by simp [h])]

theorem skipSpace_stops {s : Bytes} (h : Stops s) : skipSpace s = s := by
  cases s with
  | nil => rfl
  | cons b s => rcases h with rfl | rfl | rfl <;> exact skipSpace_cons (by decide) s

/-- A value that is read begins with neither a blank nor a closing bracket. -/
theorem render_front (h : Writable d v) :
    ∃ b s, render v = b :: s ∧ isSpace b = false ∧ b ≠ 0x5D := by
  cases h with
  | null => exact ⟨_, _, by rw [render]; rfl, by decide, by decide⟩
  | bool d b =>
    cases b with
    | true => exact ⟨_, _, by rw [render]; rfl, by decide, by decide⟩
    | false => exact ⟨_, _, by rw [render]; rfl, by decide, by decide⟩
  | ofInt d i =>
    rw [ofInt, render]
    cases i with
    | ofNat n =>
      obtain ⟨b, s, hbs, hb⟩ := ofNat_front n
      refine ⟨b, s, hbs, ?_, ?_⟩
      · cases hsp : isSpace b with
        | false => rfl
        | true =>
          simp only [isSpace, Bool.or_eq_true, decide_eq_true_eq] at hsp
          rcases hsp with ((rfl | rfl) | rfl) | rfl <;> exact absurd hb (by decide)
      · rintro rfl
        exact absurd hb (by decide)
    | negSucc n => exact ⟨octet '-', _, rfl, by decide, by decide⟩
  | string => exact ⟨Bytes.quote, _, by rw [render, renderString], by decide, by decide⟩
  | array => exact ⟨octet '[', _, by rw [render]; rfl, by decide, by decide⟩
  | object => exact ⟨octet '\x7b', _, by rw [render]; rfl, by decide, by decide⟩

theorem renderItems_cons (v : Json) {vs : List Json} (h : vs ≠ []) :
    renderItems (v :: vs) = render v ++ 0x2C :: renderItems vs := by
  cases vs with
  | nil => exact absurd rfl h
  | cons w vs =>
    rw [renderItems, List.append_assoc]
    · rfl
    · simp

theorem renderMembers_cons (name : Bytes) (v : Json) {ms : List (Bytes × Json)} (h : ms ≠ []) :
    renderMembers ((name, v) :: ms) =
      renderString name ++ 0x3A :: (render v ++ 0x2C :: renderMembers ms) := by
  cases ms with
  | nil => exact absurd rfl h
  | cons m ms =>
    rw [renderMembers]
    · simp only [List.append_assoc]
      rfl
    · simp

/-- The reader, with fuel enough for the text of `v` and `d` levels to spare, takes that text for `v`
and stops behind it. -/
def Reads (d : Nat) (v : Json) : Prop :=
  ∀ fuel rest, 2 * (render v).length ≤ fuel + 1 → Stops rest →
    value? fuel d (render v ++ rest) = some (v, rest)

theorem items?_renderItems {vs : List Json} (hne : vs ≠ []) (h : ∀ v ∈ vs, Reads d v)
    (hpos : ∀ v ∈ vs, 0 < (render v).length) {fuel : Nat} (hf : 2 * (renderItems vs).length ≤ fuel) (rest : Bytes) :
    items? fuel d (renderItems vs ++ 0x5D :: rest) = some (vs, rest) := by
  induction vs generalizing fuel with
  | nil => exact absurd rfl hne
  | cons v vs ih =>
    have hv := hpos v (by simp)
    by_cases hvs : vs = []
    · subst hvs
      rw [renderItems] at hf ⊢
      obtain ⟨fuel, rfl⟩ : ∃ n, fuel = n + 1 := ⟨fuel - 1, by omega⟩
      have hstop : Stops (0x5D :: rest) := .inr (.inl rfl)
      rw [items?, h v (by simp) fuel _ (by omega) hstop]
      simp only [skipSpace_stops hstop]
    · rw [renderItems_cons v hvs] at hf ⊢
      simp only [List.length_append, List.length_cons] at hf
      obtain ⟨fuel, rfl⟩ : ∃ n, fuel = n + 1 := ⟨fuel - 1, by omega⟩
      have hstop : Stops (0x2C :: (renderItems vs ++ 0x5D :: rest)) := .inl rfl
      rw [List.append_assoc, List.cons_append, items?, h v (by simp) fuel _ (by omega) hstop]
      simp only [skipSpace_stops hstop]
      rw [ih hvs (fun w hw => h w (by simp [hw])) (fun w hw => hpos w (by simp [hw])) (by omega)]
      rfl

theorem members?_name {name : Bytes} (h : Utf8.isValid name = true) (fuel d : Nat) (s : Bytes) :
    members? (fuel + 1) d (renderString name ++ 0x3A :: s) =
      match value? fuel d s with
      | none => none
      | some (v, rest) =>
        match skipSpace rest with
        | 0x2C :: rest => (members? fuel d rest).map fun (ms, rest) => ((name, v) :: ms, rest)
        | 0x7D :: rest => some ([(name, v)], rest)
        | _ => none := by
  obtain ⟨body, htext, hread⟩ := string?_renderString h (0x3A :: s)
  have hquote : skipSpace (Bytes.quote :: (body ++ Bytes.quote :: 0x3A :: s)) =
      Bytes.quote :: (body ++ Bytes.quote :: 0x3A :: s) := skipSpace_cons (by decide) _
  have hcolon : skipSpace (0x3A :: s) = 0x3A :: s := skipSpace_cons (by decide) s
  rw [htext, members?, hquote]
  split
  · rename_i heq
    obtain ⟨-, rfl⟩ := List.cons.inj heq
    simp only [hread]
    exact hcolon ▸ rfl
  · rename_i hne
    exact absurd rfl (hne _)

theorem members?_renderMembers {ms : List (Bytes × Json)} (hne : ms ≠ []) (hnames : ∀ m ∈ ms, Utf8.isValid m.1 = true)
    (h : ∀ m ∈ ms, Reads d m.2) {fuel : Nat} (hf : 2 * (renderMembers ms).length ≤ fuel) (rest : Bytes) :
    members? fuel d (renderMembers ms ++ 0x7D :: rest) = some (ms, rest) := by
  induction ms generalizing fuel with
  | nil => exact absurd rfl hne
  | cons m ms ih =>
    obtain ⟨name, v⟩ := m
    have hname := hnames (name, v) (by simp)
    have hv : Reads d v := h (name, v) (by simp)
    by_cases hms : ms = []
    · subst hms
      have hlast : renderMembers [(name, v)] = renderString name ++ 0x3A :: render v := by
        rw [renderMembers, List.append_assoc]
        rfl
      rw [hlast] at hf ⊢
      simp only [List.length_append, List.length_cons] at hf
      obtain ⟨fuel, rfl⟩ : ∃ n, fuel = n + 1 := ⟨fuel - 1, by omega⟩
      have hstop : Stops (0x7D :: rest) := .inr (.inr rfl)
      rw [List.append_assoc, List.cons_append, members?_name hname, hv fuel _ (by omega) hstop]
      simp only [skipSpace_stops hstop]
    · rw [renderMembers_cons name v hms] at hf ⊢
      simp only [List.length_append, List.length_cons] at hf
      obtain ⟨fuel, rfl⟩ : ∃ n, fuel = n + 1 := ⟨fuel - 1, by omega⟩
      have hstop : Stops (0x2C :: (renderMembers ms ++ 0x7D :: rest)) := .inl rfl
      simp only [List.append_assoc, List.cons_append]
      rw [members?_name hname, hv fuel _ (by omega) hstop]
      simp only [skipSpace_stops hstop]
      rw [ih hms (fun w hw => hnames w (by simp [hw])) (fun w hw => h w (by simp [hw])) (by omega)]
      rfl

theorem renderMembers_front (name : Bytes) (v : Json) (ms : List (Bytes × Json)) :
    ∃ s, renderMembers ((name, v) :: ms) = Bytes.quote :: s := by
  by_cases h : ms = []
  · subst h
    exact ⟨_, by rw [renderMembers, renderString]; rfl⟩
  · exact ⟨_, by rw [renderMembers_cons name v h, renderString]; rfl⟩

theorem renderItems_front (hv : Writable d v) (vs : List Json) :
    ∃ b s, renderItems (v :: vs) = b :: s ∧ isSpace b = false ∧ b ≠ 0x5D := by
  obtain ⟨b, s, hfront, hb⟩ := render_front hv
  by_cases h : vs = []
  · subst h
    exact ⟨b, s, by rw [renderItems, hfront], hb⟩
  · exact ⟨b, _, by rw [renderItems_cons v h, hfront, List.cons_append], hb⟩

theorem render_array (items : List Json) :
    render (.array items) = octet '[' :: (renderItems items ++ [0x5D]) := by
  rw [render]
  rfl

theorem render_object (members : List (Bytes × Json)) :
    render (.object members) = octet '\x7b' :: (renderMembers members ++ [0x7D]) := by
  rw [render]
  rfl

theorem reads_array {items : List Json} (hw : ∀ v ∈ items, Writable d v) (h : ∀ v ∈ items, Reads d v) :
    Reads (d + 1) (.array items) := by
  intro fuel rest hf hstop
  simp only [render_array, List.length_append, List.length_cons, List.length_nil] at hf
  obtain ⟨fuel, rfl⟩ : ∃ n, fuel = n + 1 := ⟨fuel - 1, by omega⟩
  rw [render_array, List.cons_append, List.append_assoc, value?, skipSpace_cons (by decide)]
  simp only [show octet '[' ≠ octet '\x7b' by decide, if_true, if_false, List.cons_append,
    List.nil_append]
  cases items with
  | nil =>
    rw [renderItems, List.nil_append, skipSpace_cons (by decide)]
    rfl
  | cons v vs =>
    obtain ⟨b, s, hfront, hsp, hb⟩ := renderItems_front (hw v (by simp)) vs
    have hread := items?_renderItems (by simp) h
      (fun w hw' => by obtain ⟨_, _, hw', -⟩ := render_front (hw w hw'); simp [hw'])
      (show 2 * (renderItems (v :: vs)).length ≤ fuel by omega) rest
    have hskip : skipSpace (renderItems (v :: vs) ++ 0x5D :: rest) =
        renderItems (v :: vs) ++ 0x5D :: rest := by
      rw [hfront, List.cons_append, skipSpace_cons hsp]
    rw [hskip]
    split
    · rename_i heq
      cases heq
    · rename_i heq
      rw [hfront] at heq
      exact absurd (List.cons.inj heq).1 hb
    · rename_i heq _
      obtain rfl := Nat.succ.inj heq
      rw [hread]
      rfl

theorem reads_object (hnames : ∀ m ∈ members, Utf8.isValid m.1 = true) (h : ∀ m ∈ members, Reads d m.2) :
    Reads (d + 1) (.object members) := by
  intro fuel rest hf hstop
  simp only [render_object, List.length_append, List.length_cons, List.length_nil] at hf
  obtain ⟨fuel, rfl⟩ : ∃ n, fuel = n + 1 := ⟨fuel - 1, by omega⟩
  rw [render_object, List.cons_append, List.append_assoc, value?, skipSpace_cons (by decide)]
  simp only [if_true, List.cons_append, List.nil_append]
  cases members with
  | nil =>
    rw [renderMembers, List.nil_append, skipSpace_cons (by decide)]
    rfl
  | cons m ms =>
    obtain ⟨s, hfront⟩ := renderMembers_front m.1 m.2 ms
    have hread := members?_renderMembers (by simp) hnames h
      (show 2 * (renderMembers (m :: ms)).length ≤ fuel by omega) rest
    have hskip : skipSpace (renderMembers (m :: ms) ++ 0x7D :: rest) =
        renderMembers (m :: ms) ++ 0x7D :: rest := by
      rw [hfront, List.cons_append, skipSpace_cons (by decide)]
    rw [hskip]
    split
    · rename_i heq
      cases heq
    · rename_i heq
      rw [hfront] at heq
      exact absurd (List.cons.inj heq).1 (by decide)
    · rename_i heq _
      obtain rfl := Nat.succ.inj heq
      rw [hread]
      rfl

theorem reads_ofInt (d : Nat) (i : Int) : Reads d (.ofInt i) := by
  intro fuel rest hf hstop
  obtain ⟨b, s, hfront, hsp, hb⟩ := render_front (.ofInt d i)
  obtain ⟨fuel, rfl⟩ : ∃ n, fuel = n + 1 := ⟨fuel - 1, by rw [hfront] at hf; simp at hf; omega⟩
  have hnum : b = octet '-' ∨ Bytes.isDigit b = true := by
    cases i with
    | ofNat n =>
      obtain ⟨c, t, h, hc⟩ := ofNat_front n
      rw [ofInt, render, Bytes.ofInt, h] at hfront
      exact .inr ((List.cons.inj hfront).1 ▸ hc)
    | negSucc n =>
      rw [ofInt, render, Bytes.ofInt] at hfront
      exact .inl (List.cons.inj hfront).1.symm
  have hother : ∀ c : UInt8, Bytes.isDigit c = false → c ≠ octet '-' → b ≠ c := by
    rintro c hdigit hminus rfl
    rcases hnum with h | h
    · exact hminus h
    · rw [h] at hdigit
      cases hdigit
  rw [value?, hfront, List.cons_append, skipSpace_cons hsp]
  simp only [hother _ (show Bytes.isDigit (octet '\x7b') = false by decide) (by decide),
    hother _ (show Bytes.isDigit (octet '[') = false by decide) (by decide),
    hother _ (show Bytes.isDigit Bytes.quote = false by decide) (by decide),
    hother _ (show Bytes.isDigit (octet 't') = false by decide) (by decide),
    hother _ (show Bytes.isDigit (octet 'f') = false by decide) (by decide),
    hother _ (show Bytes.isDigit (octet 'n') = false by decide) (by decide), if_false]
  have hread := number?_ofInt i hstop
  rw [ofInt, render] at hfront
  rw [hfront, List.cons_append] at hread
  rw [hread, Option.map_some, ← hfront]
  rfl

theorem reads_string (d : Nat) {t : Bytes} (h : Utf8.isValid t = true) : Reads d (.string t) := by
  intro fuel rest hf hstop
  obtain ⟨body, htext, hread⟩ := string?_renderString h rest
  rw [render] at hf ⊢
  obtain ⟨fuel, rfl⟩ : ∃ n, fuel = n + 1 := ⟨fuel - 1, by simp [renderString] at hf; omega⟩
  rw [htext, value?, skipSpace_cons (by decide)]
  simp only [show Bytes.quote ≠ octet '\x7b' by decide, show Bytes.quote ≠ octet '[' by decide,
    if_true, if_false, hread, Option.map_some]

theorem reads_word (d : Nat) (h : v = .null ∨ v = .bool true ∨ v = .bool false) :
    Reads d v := by
  intro fuel rest hf hstop
  cases fuel with
  | zero => rcases h with rfl | rfl | rfl <;> rw [render] at hf <;> exact absurd hf (by decide)
  | succ fuel => rcases h with rfl | rfl | rfl <;> rw [render, value?] <;> rfl

/-- Every writable value is read back from its text, in front of whatever may follow it. -/
theorem reads_of_writable (h : Writable d v) : Reads d v := by
  induction h with
  | null d => exact reads_word d (.inl rfl)
  | bool d b =>
    cases b with
    | true => exact reads_word d (.inr (.inl rfl))
    | false => exact reads_word d (.inr (.inr rfl))
  | ofInt d i => exact reads_ofInt d i
  | string d hs => exact reads_string d hs
  | array hw ih => exact reads_array hw ih
  | object hnames _ ih => exact reads_object hnames ih

theorem read?_render (h : Writable maxDepth v) : read? (render v) = some v := by
  have hread := reads_of_writable h (2 * (render v).length + 2) [] (by omega) trivial
  rw [List.append_nil] at hread
  rw [read?, hread]
  rfl

/-! ## Lengths -/

theorem length_renderMembers {name : Bytes} (h : (name, v) ∈ members) :
    (render v).length ≤ (renderMembers members).length := by
  induction members with
  | nil => cases h
  | cons m members ih =>
    obtain ⟨name', w⟩ := m
    by_cases hnil : members = []
    · subst hnil
      cases List.mem_singleton.1 h
      rw [renderMembers]
      simp only [List.length_append]
      omega
    · rw [renderMembers_cons name' w hnil]
      simp only [List.length_append, List.length_cons]
      rcases List.mem_cons.1 h with h | h
      · cases h
        omega
      · have hle := ih h
        omega

theorem length_le_renderItems (items : List Json) : items.length ≤ (renderItems items).length + 1 := by
  induction items with
  | nil => simp
  | cons v items ih =>
    by_cases hnil : items = []
    · simp [hnil]
    · rw [renderItems_cons v hnil, List.length_append, List.length_cons, List.length_cons]
      omega

theorem length_le_renderMembers (members : List (Bytes × Json)) :
    members.length ≤ (renderMembers members).length + 1 := by
  induction members with
  | nil => simp
  | cons m members ih =>
    obtain ⟨name, v⟩ := m
    by_cases hnil : members = []
    · simp [hnil]
    · rw [renderMembers_cons name v hnil]
      simp only [List.length_append, List.length_cons]
      omega

theorem length_render_array (items : List Json) : items.length ≤ (render (.array items)).length := by
  have hle := length_le_renderItems items
  rw [render_array]
  simp only [List.length_cons, List.length_append, List.length_nil]
  omega

theorem length_render_object (members : List (Bytes × Json)) :
    members.length ≤ (render (.object members)).length := by
  have hle := length_le_renderMembers members
  rw [render_object]
  simp only [List.length_cons, List.length_append, List.length_nil]
  omega

theorem length_render_member {name : Bytes} (h : (name, v) ∈ members) :
    (render v).length ≤ (render (.object members)).length := by
  have hle := length_renderMembers h
  rw [render_object]
  simp only [List.length_cons, List.length_append, List.length_nil]
  omega

end Json
end ShaderForge
