import ShaderForge.Text.Bytes

/-!
# ShaderForge.Proofs.Text.Bytes

Laws of the operations on octets.

* `after?_append`, `eq_append_of_after?` — taking off a front.
* `takeWhile_front`, `dropWhile_front` — a front of one class of octets, and what follows it.
* `natOf?_ofNat`        — decimal numerals are read back.
* `ofNat_leading`       — a decimal numeral is `0` or does not begin with it.
* `hexValue?_hexDigit`  — so are single hexadecimal digits.
-/

namespace ShaderForge
namespace Bytes

theorem after?_append (front s : Bytes) : after? front (front ++ s) = some s := by
  induction front with
  | nil => rfl
  | cons a front ih => simp [after?, ih]

theorem eq_append_of_after? {front s rest : Bytes} (h : after? front s = some rest) :
    s = front ++ rest := by
  induction front generalizing s with
  | nil => simp only [after?, Option.some.injEq] at h; subst h; rfl
  | cons a front ih =>
    cases s with
    | nil => simp [after?] at h
    | cons b s =>
      simp only [after?] at h
      split at h
      · rename_i hab
        subst hab
        rw [List.cons_append, ← ih h]
      · cases h

theorem takeWhile_front {p : UInt8 → Bool} {l r : Bytes} (hl : ∀ b ∈ l, p b = true)
    (hr : ∀ b ∈ r.head?, p b = false) : (l ++ r).takeWhile p = l := by
  rw [List.takeWhile_append_of_pos hl]
  cases r with
  | nil => simp
  | cons b r => rw [List.takeWhile_cons_of_neg (by simp [hr b rfl]), List.append_nil]

theorem dropWhile_front {p : UInt8 → Bool} {l r : Bytes} (hl : ∀ b ∈ l, p b = true)
    (hr : ∀ b ∈ r.head?, p b = false) : (l ++ r).dropWhile p = r := by
  rw [List.dropWhile_append_of_pos hl]
  cases r with
  | nil => rfl
  | cons b r => rw [List.dropWhile_cons_of_neg (by simp [hr b rfl])]

theorem contains_singleton {s : Bytes} {b : UInt8} : contains s [b] = true ↔ b ∈ s := by
  induction s with
  | nil => simp [contains]
  | cons c s ih =>
    rw [contains, Bool.or_eq_true, ih, List.mem_cons, startsWith]
    refine or_congr ?_ Iff.rfl
    by_cases h : b = c <;> simp [after?, h]

/-- What holds of the octet of every number below 256 holds of every octet. -/
theorem forall_octet {P : UInt8 → Prop} (h : ∀ n < 256, P (UInt8.ofNat n)) (b : UInt8) : P b := by
  have hb := h b.toNat b.toNat_lt
  rwa [UInt8.ofNat_toNat] at hb

/-! ## Numerals -/

def digitOctet (n : Nat) : UInt8 := UInt8.ofNat (0x30 + n)

theorem toUInt8_digitChar : ∀ n < 10, (Nat.digitChar n).toUInt8 = digitOctet n := by decide

theorem isDigit_digitOctet : ∀ n < 10, isDigit (digitOctet n) = true := by decide

theorem toNat_digitOctet {n : Nat} (h : n < 10) : (digitOctet n).toNat = 0x30 + n := by
  rw [digitOctet, UInt8.toNat_ofNat']; omega

theorem ofNat_eq (n : Nat) :
    ofNat n = if n < 10 then [digitOctet n] else ofNat (n / 10) ++ [digitOctet (n % 10)] := by
  unfold ofNat
  rw [Nat.toDigits_eq_if (by decide)]
  by_cases h : n < 10
  · rw [if_pos h, if_pos h, List.map_singleton, toUInt8_digitChar n h]
  · rw [if_neg h, if_neg h, List.map_append, List.map_singleton,
      toUInt8_digitChar _ (Nat.mod_lt _ (by decide))]

theorem ofNat_ne_nil (n : Nat) : ofNat n ≠ [] := by
  rw [ofNat_eq]
  split <;> simp

theorem lt_length_ofNat {k n : Nat} (h : Nat.pow 10 k ≤ n) : k < (ofNat n).length := by
  induction k generalizing n with
  | zero => exact List.length_pos_iff.2 (ofNat_ne_nil n)
  | succ k ih =>
    have hpos : 0 < Nat.pow 10 k := Nat.pow_pos (by decide)
    have hten : Nat.pow 10 k * 10 ≤ n := h
    rw [ofNat_eq, if_neg (by omega), List.length_append, List.length_singleton]
    exact Nat.succ_lt_succ (ih ((Nat.le_div_iff_mul_le (by decide)).2 hten))

theorem isDigit_of_mem_ofNat {n : Nat} : ∀ b ∈ ofNat n, isDigit b = true := by
  induction n using Nat.strongRecOn with
  | ind n ih =>
    intro b hb
    rw [ofNat_eq] at hb
    split at hb
    · rename_i hn
      rw [List.mem_singleton.1 hb]
      exact isDigit_digitOctet n hn
    · rename_i hn
      rcases List.mem_append.1 hb with hb | hb
      · exact ih (n / 10) (by omega) b hb
      · rw [List.mem_singleton.1 hb]
        exact isDigit_digitOctet _ (Nat.mod_lt _ (by decide))

theorem digitsValue_append_digit (s : Bytes) {d : Nat} (h : d < 10) :
    digitsValue (s ++ [digitOctet d]) = 10 * digitsValue s + d := by
  simp only [digitsValue, List.foldl_append, List.foldl_cons, List.foldl_nil, toNat_digitOctet h]
  omega

theorem digitsValue_ofNat (n : Nat) : digitsValue (ofNat n) = n := by
  induction n using Nat.strongRecOn with
  | ind n ih =>
    rw [ofNat_eq]
    split
    · rename_i hn
      have := digitsValue_append_digit [] hn
      simpa [digitsValue] using this
    · rw [digitsValue_append_digit _ (Nat.mod_lt _ (by decide)), ih (n / 10) (by omega)]
      omega

theorem natOf?_ofNat (n : Nat) : natOf? (ofNat n) = some n := by
  have hall : (ofNat n).all isDigit = true := List.all_eq_true.2 isDigit_of_mem_ofNat
  simp [natOf?, ofNat_ne_nil, hall, digitsValue_ofNat]

theorem ofNat_leading (n : Nat) : ofNat n = [0x30] ∨ ∃ b s, ofNat n = b :: s ∧ b ≠ 0x30 := by
  induction n using Nat.strongRecOn with
  | ind n ih =>
    rw [ofNat_eq]
    split
    · rename_i hn
      by_cases h0 : n = 0
      · subst h0; exact .inl rfl
      · refine .inr ⟨digitOctet n, [], rfl, ?_⟩
        rw [ne_eq, ← UInt8.toNat_inj, toNat_digitOctet hn]
        simp only [UInt8.reduceToNat]
        omega
    · rename_i hn
      rcases ih (n / 10) (by omega) with h0 | ⟨b, s, hs, hb⟩
      · have := congrArg digitsValue h0
        rw [digitsValue_ofNat] at this
        simp [digitsValue] at this
        omega
      · exact .inr ⟨b, s ++ [digitOctet (n % 10)], by rw [hs]; rfl, hb⟩

theorem hexValue?_hexDigit : ∀ n < 16, hexValue? (hexDigit n) = some n := by decide

theorem hex_four (n : Nat) :
    hex 4 n = [hexDigit (n / 4096 % 16), hexDigit (n / 256 % 16), hexDigit (n / 16 % 16),
      hexDigit (n % 16)] := by
  simp [hex, List.range, List.range.loop]

end Bytes
end ShaderForge
