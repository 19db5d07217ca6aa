import CallGrammar.Proofs.Partition

/-!
# CallGrammar.Proofs.ByteOrder

The order of texts by their characters is their order by bytes.  The bytes of a character are
its code in digits to the base 64, the most significant one first, and the first byte grows
with the number of digits: of two characters the one with the smaller code is the smaller one
at the first byte where they differ (`encode_append_lt`).
-/

namespace CallGrammar.Token

/-- The smaller number is the smaller one at the first of its digits that differs. -/
theorem digits_lt {m n : Nat} (h : m < n) (hmax : n < 0x110000) :
    m / 262144 % 8 < n / 262144 % 8 ∨ m / 262144 % 8 = n / 262144 % 8 ∧
      (m / 4096 % 64 < n / 4096 % 64 ∨ m / 4096 % 64 = n / 4096 % 64 ∧
        (m / 64 % 64 < n / 64 % 64 ∨ m / 64 % 64 = n / 64 % 64 ∧ m % 64 < n % 64)) := by
  have hlast {m n : Nat} (h : m < n) :
      m / 64 < n / 64 ∨ m / 64 = n / 64 ∧ m % 64 < n % 64 := by omega
  have hdiv (v : Nat) : v / 4096 = v / 64 / 64 ∧ v / 262144 = v / 64 / 64 / 64 := by omega
  have hfirst : m / 262144 % 8 = m / 262144 ∧ n / 262144 % 8 = n / 262144 := by omega
  rw [hfirst.1, hfirst.2]
  have hm := hdiv m
  have hn := hdiv n
  obtain h₁ | h₁ := hlast h
  · obtain h₂ | h₂ := hlast h₁
    · obtain h₃ | h₃ := hlast h₂ <;> omega
    · omega
  · omega

/-- The bytes of the smaller character come first, whatever stands behind them. -/
theorem encode_append_lt {c d : Char} (h : c < d) (bs bs' : List UInt8) :
    String.utf8EncodeChar c ++ bs < String.utf8EncodeChar d ++ bs' := by
  have hlt : c.val.toNat < d.val.toNat := UInt32.lt_iff_toNat_lt.1 h
  have hmax : d.val.toNat < 0x110000 := by
    rcases d.valid with hd | hd <;> omega
  have hbyte {a b : Nat} (ha : a < 256) (hb : b < 256) :
      (UInt8.ofNat a < UInt8.ofNat b ↔ a < b) ∧ (UInt8.ofNat a = UInt8.ofNat b ↔ a = b) := by
    rw [UInt8.lt_iff_toNat_lt, ← UInt8.toNat_inj, UInt8.toNat_ofNat', UInt8.toNat_ofNat',
      Nat.mod_eq_of_lt ha, Nat.mod_eq_of_lt hb]
    exact ⟨Iff.rfl, Iff.rfl⟩
  unfold String.utf8EncodeChar
  generalize c.val.toNat = m at *
  generalize d.val.toNat = n at *
  have hdigits := digits_lt hlt hmax
  dsimp only
  split_ifs
  all_goals
    simp (disch := omega) only [List.cons_append, List.nil_append, List.cons_lt_cons_iff, hbyte]
  -- the first bytes differ, unless the two characters have the same number of bytes
  all_goals omega

/-- Texts are in the order of their bytes, as UTF-8 keeps the order of characters. -/
theorem bytes_lt_of_lt {cs ds : List Char} (h : cs < ds) : bytes cs < bytes ds := by
  induction h with
  | @nil d ds =>
    obtain ⟨b, bs, hd⟩ := List.exists_cons_of_ne_nil (String.utf8EncodeChar_ne_nil (c := d))
    simp [bytes, hd]
  | @cons c cs ds _ ih =>
    rw [bytes, bytes, List.flatMap_cons, List.flatMap_cons]
    exact List.append_left_lt ih
  | rel hlt => exact encode_append_lt hlt _ _

/-- Strings are in the order of their bytes. -/
theorem toUTF8_lt_of_lt {s t : String} (h : s < t) :
    s.toUTF8.data.toList < t.toUTF8.data.toList := by
  rw [toList_toUTF8, toList_toUTF8]
  exact bytes_lt_of_lt h

end CallGrammar.Token
