import ClusterCache.Text.Utf8
import Mathlib.Tactic.IntervalCases

/-!
# Reading what was written as UTF-8

Decoding the bytes of a character and anything after them yields the character and goes on with
the rest, so that a text is read back as it was written.
-/

namespace ClusterCache.Text

/-! ## Bytes that start a character -/

theorem start_one {k : Nat} (h : k ≤ 127) : start (UInt8.ofNat k) = .char (Char.ofNat k) := by
  interval_cases k <;> rfl

theorem start_two {k : Nat} (hlow : 2 ≤ k) (hhigh : k < 32) :
    start (UInt8.ofNat (k + 192)) = .more ⟨k, 1, 0x80, 0xbf⟩ := by
  interval_cases k <;> rfl

theorem start_three {k : Nat} (h : k < 16) :
    start (UInt8.ofNat (k + 224)) =
      .more ⟨k, 2, if k = 0 then 0xa0 else 0x80, if k = 13 then 0x9f else 0xbf⟩ := by
  interval_cases k <;> rfl

theorem start_four {k : Nat} (h : k < 5) :
    start (UInt8.ofNat (k + 240)) =
      .more ⟨k, 3, if k = 0 then 0x90 else 0x80, if k = 4 then 0x8f else 0xbf⟩ := by
  interval_cases k <;> rfl

/-! ## Bytes that go on with a character -/

section Continuation

variable {u : Unfinished} {n : Nat} {bs : List UInt8}

theorem toNat_tail (n : Nat) : (UInt8.ofNat (n % 64 + 128)).toNat = n % 64 + 128 := by
  rw [UInt8.toNat_ofNat']
  omega

theorem decodeFrom_tail (hlow : u.low.toNat ≤ n % 64 + 128) (hhigh : n % 64 + 128 ≤ u.high.toNat) :
    decodeFrom (some u) (UInt8.ofNat (n % 64 + 128) :: bs) =
      if u.left = 1 then some (Char.ofNat (64 * u.bits + n % 64)) :: decodeFrom none bs
      else decodeFrom (some ⟨64 * u.bits + n % 64, u.left - 1, 0x80, 0xbf⟩) bs := by
  have hbits : (UInt8.ofNat (n % 64 + 128)).toNat - 0x80 = n % 64 := by
    rw [toNat_tail]
    omega
  rw [← toNat_tail] at hlow hhigh
  rw [decodeFrom, if_pos ⟨UInt8.le_iff_toNat_le.mpr hlow, UInt8.le_iff_toNat_le.mpr hhigh⟩]
  simp only [hbits]

/-- Every byte after the second one may be any that continues a character. -/
theorem decodeFrom_last (bits : Nat) :
    decodeFrom (some ⟨bits, 1, 0x80, 0xbf⟩) (UInt8.ofNat (n % 64 + 128) :: bs) =
      some (Char.ofNat (64 * bits + n % 64)) :: decodeFrom none bs := by
  have hlt : n % 64 < 64 := Nat.mod_lt n (by omega)
  rw [decodeFrom_tail (by simp) (by simp; omega), if_pos rfl]

theorem decodeFrom_next (bits left : Nat) :
    decodeFrom (some ⟨bits, left + 2, 0x80, 0xbf⟩) (UInt8.ofNat (n % 64 + 128) :: bs) =
      decodeFrom (some ⟨64 * bits + n % 64, left + 1, 0x80, 0xbf⟩) bs := by
  have hlt : n % 64 < 64 := Nat.mod_lt n (by omega)
  rw [decodeFrom_tail (by simp) (by simp; omega), if_neg (by simp)]
  rfl

end Continuation

/-! ## Characters and texts -/

theorem decodeFrom_of_start {b : UInt8} {u : Unfinished} (h : start b = .more u) (bs : List UInt8) :
    decodeFrom none (b :: bs) = decodeFrom (some u) bs := by
  rw [decodeFrom, h]

theorem toNat_lt_or (c : Char) : c.toNat < 0xd800 ∨ 0xdfff < c.toNat ∧ c.toNat < 0x110000 :=
  c.valid

theorem decodeFrom_char (c : Char) (bs : List UInt8) :
    decodeFrom none (String.utf8EncodeChar c ++ bs) = some c :: decodeFrom none bs := by
  have hvalid := toNat_lt_or c
  have hofNat := Char.ofNat_toNat c
  simp only [String.utf8EncodeChar, show c.val.toNat = c.toNat from rfl]
  generalize c.toNat = v at *
  split_ifs with hone htwo hthree
  · rw [List.singleton_append, decodeFrom, start_one hone, hofNat]
  · rw [show v / 64 % 32 = v / 64 by omega, List.cons_append, List.singleton_append,
      decodeFrom_of_start (start_two (by omega) (by omega)), decodeFrom_last,
      show 64 * (v / 64) + v % 64 = v by omega, hofNat]
  · rw [show v / 4096 % 16 = v / 4096 by omega, List.cons_append, List.cons_append,
      List.singleton_append, decodeFrom_of_start (start_three (by omega)),
      decodeFrom_tail (by dsimp only; split_ifs <;> simp; omega)
        (by dsimp only; split_ifs <;> simp <;> omega), if_neg (by simp)]
    rw [show (2 : Nat) - 1 = 1 from rfl, decodeFrom_last,
      show 64 * (64 * (v / 4096) + v / 64 % 64) + v % 64 = v by omega, hofNat]
  · rw [show v / 262144 % 8 = v / 262144 by omega, List.cons_append, List.cons_append,
      List.cons_append, List.singleton_append, decodeFrom_of_start (start_four (by omega)),
      decodeFrom_tail (by dsimp only; split_ifs <;> simp; omega)
        (by dsimp only; split_ifs <;> simp <;> omega), if_neg (by simp)]
    rw [show (3 : Nat) - 1 = 0 + 2 from rfl, decodeFrom_next, decodeFrom_last,
      show 64 * (64 * (64 * (v / 262144) + v / 4096 % 64) + v / 64 % 64) + v % 64 = v by omega,
      hofNat]

/-- A text is read back character by character. -/
theorem decodeUtf8_utf8 (s : String) : decodeUtf8 (utf8 s) = s.toList.map some := by
  rw [decodeUtf8, utf8]
  induction s.toList with
  | nil => rfl
  | cons c cs ih => rw [List.flatMap_cons, decodeFrom_char, ih, List.map_cons]

end ClusterCache.Text
