import BeamEnvelope.Text.Bytes
import Mathlib.Data.List.Basic

/-!
# Bytes of texts

The bytes of a text are those of its characters in their order. A character below 128 is one byte of
the same value, and every other character takes bytes from 128 on, so such a character is found
among the bytes of a text exactly if it is found in the text.
-/

namespace BeamEnvelope

variable {s : String} {b : UInt8} {c : Char}

theorem bytesOf_eq_flatMap (s : String) : bytesOf s = s.toList.flatMap String.utf8EncodeChar := by
  conv_lhs => rw [← String.ofList_toList (s := s)]
  rw [bytesOf, String.toUTF8_eq_toByteArray]
  exact congrArg Array.toList List.data_toByteArray

@[simp] theorem bytesOf_append (s t : String) : bytesOf (s ++ t) = bytesOf s ++ bytesOf t := by
  rw [bytesOf_eq_flatMap, bytesOf_eq_flatMap, bytesOf_eq_flatMap, String.toList_append,
    List.flatMap_append]

theorem bytesOf_join (texts : List String) :
    bytesOf (String.join texts) = texts.flatMap bytesOf := by
  rw [bytesOf_eq_flatMap, String.toList_join, List.flatMap_assoc]
  exact congrArg (texts.flatMap ·) (funext fun s => (bytesOf_eq_flatMap s).symm)

/-- The bytes of a text are decoded as that text. -/
theorem fromUTF8?_eq_some {bytes : List UInt8} :
    String.fromUTF8? ⟨bytes.toArray⟩ = some s ↔ bytes = bytesOf s := by
  unfold String.fromUTF8?
  constructor
  · intro h
    split at h
    · obtain rfl := Option.some.inj h
      rfl
    · cases h
  · rintro rfl
    exact dif_pos s.isValidUTF8

theorem utf8EncodeChar_of_lt (h : c.toNat < 128) : String.utf8EncodeChar c = [c.toUInt8] := by
  have hle : c.val.toNat ≤ 0x7f := Nat.le_of_lt_succ h
  rw [String.utf8EncodeChar, if_pos hle]
  rfl

theorem le_of_mem_utf8EncodeChar (h : 128 ≤ c.toNat) (hb : b ∈ String.utf8EncodeChar c) :
    128 ≤ b.toNat := by
  have hlt : ¬ c.val.toNat ≤ 0x7f := Nat.not_le.2 h
  have hbound := c.val.toNat_lt
  rw [String.utf8EncodeChar, if_neg hlt] at hb
  generalize c.val.toNat = v at *
  split at hb
  · simp only [List.mem_cons, List.not_mem_nil, or_false] at hb
    rcases hb with rfl | rfl <;> rw [UInt8.toNat_ofNat'] <;> omega
  · split at hb
    · simp only [List.mem_cons, List.not_mem_nil, or_false] at hb
      rcases hb with rfl | rfl | rfl <;> rw [UInt8.toNat_ofNat'] <;> omega
    · simp only [List.mem_cons, List.not_mem_nil, or_false] at hb
      rcases hb with rfl | rfl | rfl | rfl <;> rw [UInt8.toNat_ofNat'] <;> omega

theorem ofNat_toNat_toUInt8 (h : c.toNat < 128) : Char.ofNat c.toUInt8.toNat = c := by
  have hvalue : c.toUInt8.toNat = c.toNat := by
    rw [Char.toUInt8, UInt32.toNat_toUInt8]
    exact Nat.mod_eq_of_lt (Nat.lt_of_lt_of_le h (by decide))
  rw [hvalue, Char.ofNat_toNat]

theorem toNat_ofNat_of_byte (b : UInt8) : (Char.ofNat b.toNat).toNat = b.toNat := by
  have hvalid : b.toNat.isValidChar := .inl (Nat.lt_trans b.toNat_lt (by decide))
  rw [Char.ofNat, dif_pos hvalid]
  exact UInt32.toNat_ofNatLT

theorem toUInt8_ofNat (b : UInt8) : (Char.ofNat b.toNat).toUInt8 = b := by
  apply UInt8.toNat_inj.1
  rw [Char.toUInt8, UInt32.toNat_toUInt8]
  change (Char.ofNat b.toNat).toNat % 2 ^ 8 = _
  rw [toNat_ofNat_of_byte, Nat.mod_eq_of_lt b.toNat_lt]

theorem bytesOf_ofList {cs : List Char} (h : ∀ c ∈ cs, c.toNat < 128) :
    bytesOf (String.ofList cs) = cs.map Char.toUInt8 := by
  rw [bytesOf_eq_flatMap, String.toList_ofList]
  induction cs with
  | nil => rfl
  | cons c cs ih =>
    rw [List.flatMap_cons, List.map_cons, utf8EncodeChar_of_lt (h c (by simp)),
      ih fun d hd => h d (List.mem_cons_of_mem _ hd)]
    rfl

theorem mem_bytesOf (hb : b.toNat < 128) : b ∈ bytesOf s ↔ Char.ofNat b.toNat ∈ s.toList := by
  rw [bytesOf_eq_flatMap, List.mem_flatMap]
  constructor
  · rintro ⟨c, hc, hmem⟩
    have hlt : c.toNat < 128 := by
      by_contra hge
      exact absurd (le_of_mem_utf8EncodeChar (Nat.not_lt.1 hge) hmem) (Nat.not_le.2 hb)
    rw [utf8EncodeChar_of_lt hlt, List.mem_singleton] at hmem
    rw [hmem, ofNat_toNat_toUInt8 hlt]
    exact hc
  · intro hc
    have hlt : (Char.ofNat b.toNat).toNat < 128 := by
      rw [toNat_ofNat_of_byte]
      exact hb
    refine ⟨_, hc, ?_⟩
    rw [utf8EncodeChar_of_lt hlt, toUInt8_ofNat]
    exact List.mem_singleton_self b

theorem lt_of_mem_toList (h : ∀ b ∈ bytesOf s, b.toNat < 128) : ∀ c ∈ s.toList, c.toNat < 128 := by
  intro c hc
  by_contra hge
  obtain ⟨b, bs, hbytes⟩ := List.exists_cons_of_ne_nil (String.utf8EncodeChar_ne_nil (c := c))
  have hb : b ∈ String.utf8EncodeChar c := by
    rw [hbytes]
    exact List.mem_cons_self
  have hmem : b ∈ bytesOf s := by
    rw [bytesOf_eq_flatMap]
    exact List.mem_flatMap.2 ⟨c, hc, hb⟩
  exact absurd (h b hmem) (Nat.not_lt.2 (le_of_mem_utf8EncodeChar (Nat.not_lt.1 hge) hb))

end BeamEnvelope
