import BeamEnvelope.Text.Lowercase
import Mathlib.Data.List.Basic

/-!
# Lower-cased texts

Lower-casing a text leaves no capital letter of ASCII in it and ends no line that did not end before.
The form of a character depends on the ones around it only outside of ASCII.
-/

namespace BeamEnvelope.Text

variable {c d : Char} {cs : List Char}

def IsCapital (c : Char) : Prop := 65 ≤ c.toNat ∧ c.toNat ≤ 90

/-- Whether `d` can stand in the lower-case form of `c`. -/
def IsLowered (c d : Char) : Prop := ¬ IsCapital d ∧ (d = '\n' → c = '\n')

theorem isLowered_of_le (h : 97 ≤ d.toNat) : IsLowered c d := by
  refine ⟨fun hcapital => absurd hcapital.2 (by omega), ?_⟩
  rintro rfl
  exact absurd h (by decide)

theorem toNat_ofNat_eq (n : Nat) : (Char.ofNat n).toNat = n ∨ (Char.ofNat n).toNat = 0 := by
  by_cases hvalid : n.isValidChar
  · rw [Char.ofNat, dif_pos hvalid]
    exact .inl UInt32.toNat_ofNatLT
  · rw [Char.ofNat, dif_neg hvalid]
    exact .inr rfl

theorem isLowered_toLower (h : c.toNat < 128) : IsLowered c c.toLower := by
  have hascii : ∀ n < 128, IsLowered (Char.ofNat n) (Char.ofNat n).toLower := by
    unfold IsLowered IsCapital
    decide
  have hc := hascii c.toNat h
  rwa [Char.ofNat_toNat] at hc

/-- No run leads to a capital letter or to the end of a line. -/
theorem le_of_mem_lowerRuns : ∀ r ∈ lowerRuns, 97 ≤ (r.first : Int) + r.shift := by
  decide +kernel

theorem isLowered_of_mem_lowerChar (h : d ∈ lowerChar c) : IsLowered c d := by
  rw [lowerChar] at h
  split at h
  · rename_i hascii
    obtain rfl := List.mem_singleton.1 h
    exact isLowered_toLower hascii
  · rename_i hlarge
    split at h
    · simp only [List.mem_cons, List.not_mem_nil, or_false] at h
      rcases h with rfl | rfl <;> exact isLowered_of_le (by decide)
    · split at h
      · rename_i r hr
        obtain rfl := List.mem_singleton.1 h
        have hrun := le_of_mem_lowerRuns r (List.mem_of_find?_eq_some hr)
        have hcontains : r.contains c = true :=
          List.find?_some (p := fun r : CaseRun => r.contains c) hr
        have hfirst : r.first ≤ c.toNat := by
          simp only [CaseRun.contains, Bool.and_eq_true, decide_eq_true_iff] at hcontains
          exact hcontains.1.1
        rcases toNat_ofNat_eq (c.toNat + r.shift).toNat with heq | hzero
        · exact isLowered_of_le (by omega)
        · refine ⟨fun hcapital => absurd hcapital.1 (by omega), fun hbreak => ?_⟩
          rw [hbreak] at hzero
          cases hzero
      · obtain rfl := List.mem_singleton.1 h
        exact isLowered_of_le (by omega)

theorem exists_of_mem_lowerAfter {before : List Char} (h : d ∈ lowerAfter before cs) :
    ∃ c ∈ cs, IsLowered c d := by
  induction cs generalizing before with
  | nil => cases h
  | cons c cs ih =>
    rw [lowerAfter, List.mem_append] at h
    rcases h with h | h
    · refine ⟨c, List.mem_cons_self, ?_⟩
      split at h
      · obtain rfl := List.mem_singleton.1 h
        split <;> exact isLowered_of_le (by decide)
      · exact isLowered_of_mem_lowerChar h
    · obtain ⟨e, he, hlowered⟩ := ih h
      exact ⟨e, List.mem_cons_of_mem c he, hlowered⟩

theorem exists_of_mem_lowercase (h : d ∈ lowercase cs) : ∃ c ∈ cs, IsLowered c d :=
  exists_of_mem_lowerAfter h

theorem lowerAfter_ascii (h : ∀ c ∈ cs, c.toNat < 128) (before : List Char) :
    lowerAfter before cs = cs.map Char.toLower := by
  induction cs generalizing before with
  | nil => rfl
  | cons c cs ih =>
    obtain ⟨hc, hcs⟩ := List.forall_mem_cons.1 h
    have hsigma : c ≠ '\u03a3' := by
      rintro rfl
      exact absurd hc (by decide)
    rw [lowerAfter, ih hcs, List.map_cons, if_neg hsigma, lowerChar, if_pos hc]
    rfl

/-- The characters of ASCII are lower-cased one by one. -/
theorem lowercase_ascii (h : ∀ c ∈ cs, c.toNat < 128) : lowercase cs = cs.map Char.toLower :=
  lowerAfter_ascii h []

end BeamEnvelope.Text
