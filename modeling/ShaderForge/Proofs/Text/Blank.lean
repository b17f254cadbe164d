import ShaderForge.Proofs.Text.Bytes
import ShaderForge.Proofs.Text.Utf8
import ShaderForge.Text.Blank

/-!
# ShaderForge.Proofs.Text.Blank

Texts of ASCII octets, where an octet is a glyph.

* `glyphs_ascii`       — each octet is read by itself.
* `isBlank_of_octets`  — blanks are told by the octet.
-/

namespace ShaderForge

def IsAscii (s : Bytes) : Prop := ∀ b ∈ s, b.toNat < 0x80

theorem IsAscii.of_cons {b : UInt8} {s : Bytes} (h : IsAscii (b :: s)) : b.toNat < 0x80 ∧ IsAscii s :=
  ⟨h b List.mem_cons_self, fun c hc => h c (List.mem_cons_of_mem b hc)⟩

/-- The blanks among the ASCII octets. -/
def isBlankOctet (b : UInt8) : Bool := (0x09 ≤ b && b ≤ 0x0D) || b = 0x20

theorem toNat_of_isBlankOctet (b : UInt8) : isBlankOctet b = true → b.toNat < 0x80 :=
  Bytes.forall_octet (P := fun b => isBlankOctet b = true → b.toNat < 0x80) (by decide +kernel) b

def asciiGlyph (b : UInt8) : Glyph := .scalar (Char.ofNat b.toNat)

theorem bytes_asciiGlyph (b : UInt8) : b.toNat < 0x80 → (asciiGlyph b).bytes = [b] :=
  Bytes.forall_octet (P := fun b => b.toNat < 0x80 → (asciiGlyph b).bytes = [b]) (by decide +kernel) b

theorem isBlank_asciiGlyph (b : UInt8) : b.toNat < 0x80 → (asciiGlyph b).isBlank = isBlankOctet b :=
  Bytes.forall_octet (P := fun b => b.toNat < 0x80 → (asciiGlyph b).isBlank = isBlankOctet b)
    (by decide +kernel) b

theorem glyphs_ascii {s : Bytes} (h : IsAscii s) : Utf8.glyphs s = s.map asciiGlyph := by
  induction s with
  | nil => rfl
  | cons b s ih =>
    obtain ⟨hb, hs⟩ := h.of_cons
    have hglyphs := Utf8.glyphs_encode_append (Char.ofNat b.toNat) s
    rw [show Utf8.encode (Char.ofNat b.toNat) = [b] from bytes_asciiGlyph b hb, ih hs] at hglyphs
    exact hglyphs

theorem concat_asciiGlyph {s : Bytes} (h : IsAscii s) : Glyph.concat (s.map asciiGlyph) = s := by
  rw [← glyphs_ascii h, Utf8.concat_glyphs]

theorem isBlank_of_octets {s : Bytes} {v : Bool} (h : ∀ b ∈ s, isBlankOctet b = v ∧ b.toNat < 0x80) :
    ∀ g ∈ Utf8.glyphs s, g.isBlank = v := by
  intro g hg
  rw [glyphs_ascii fun b hb => (h b hb).2] at hg
  obtain ⟨b, hb, rfl⟩ := List.mem_map.1 hg
  rw [isBlank_asciiGlyph b (h b hb).2, (h b hb).1]

end ShaderForge
