import ShaderForge.Proofs.Text.Utf8
import ShaderForge.Text.Case

/-!
# ShaderForge.Proofs.Text.Case

A name in lower case is still a name: `lower_eq_slash`, on characters, and `Bytes.slash_mem_lower`, on texts.
-/

namespace ShaderForge

theorem first_add_shift_lowerRuns : ∀ r ∈ lowerRuns, 0x30 ≤ (r.first : Int) + r.shift := by decide +kernel

theorem lower_eq_slash {c : Char} (h : lower c = '/') : c = '/' := by
  unfold lower at h
  split at h
  · unfold Char.toLower at h
    split at h
    · rename_i hupper
      have hval := congrArg (fun c : Char => c.val.toNat) h
      have hlow : 65 ≤ c.val.toNat := UInt32.le_iff_toNat_le.1 hupper.1
      have hhigh : c.val.toNat ≤ 90 := UInt32.le_iff_toNat_le.1 hupper.2
      simp only [UInt32.toNat_add] at hval
      change (c.val.toNat + 32) % 4294967296 = 47 at hval
      omega
    · exact h
  · unfold shiftCase at h
    split at h
    · rename_i r hfound
      have hbound := first_add_shift_lowerRuns r (List.mem_of_find?_eq_some hfound)
      have hlists := List.find?_some hfound
      simp only [CaseRun.lists, Bool.and_eq_true, decide_eq_true_eq] at hlists
      generalize hn : ((c.toNat : Int) + r.shift).toNat = n at h
      have hlarge : 0x30 ≤ n := by omega
      by_cases hvalid : n.isValidChar
      · have hval := Utf8.toNat_val_ofNat hvalid
        rw [h] at hval
        change 47 = n at hval
        omega
      · rw [Char.ofNat, dif_neg hvalid] at h
        exact absurd h (by decide)
    · exact h

namespace Bytes

theorem slash_mem_lower {s : Bytes} (h : slash ∈ s.lower) : slash ∈ s := by
  unfold lower at h
  split at h
  · obtain ⟨b, hb, hlower⟩ := List.mem_map.1 h
    have hslash : b = slash := by
      unfold lowerAscii at hlower
      split at hlower
      · rename_i hupper
        simp only [isUpper, Bool.and_eq_true, decide_eq_true_eq] at hupper
        have hval := congrArg UInt8.toNat hlower
        have hlow : 65 ≤ b.toNat := UInt8.le_iff_toNat_le.1 hupper.1
        have hhigh : b.toNat ≤ 90 := UInt8.le_iff_toNat_le.1 hupper.2
        rw [UInt8.toNat_add] at hval
        change (b.toNat + 32) % 256 = 47 at hval
        omega
      · exact hlower
    exact hslash ▸ hb
  · obtain ⟨g, hg, hslash⟩ := List.mem_flatMap.1 h
    have hshown : g.shown = '/' := by
      refine lower_eq_slash (Char.ext (UInt32.toNat_inj.1 ?_))
      rcases Utf8.toNat_of_mem_encode hslash with hval | hval
      · exact hval.symm
      · exact absurd hval (by decide)
    have hbytes : slash ∈ g.bytes := by
      cases g with
      | scalar c =>
        rw [show c = '/' from hshown]
        decide
      | stray b => exact absurd (show Utf8.replacement = '/' from hshown) (by decide)
    rw [← Utf8.concat_glyphs s]
    exact List.mem_flatMap.2 ⟨g, hg, hbytes⟩

end Bytes

end ShaderForge
