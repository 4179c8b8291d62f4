import Docket.Proofs.Blob.Reading

/-!
# Scalars are read as they were written

Every integer of 64 bits comes back from its groups of seven bits, every length
and index below 2^63 from its varint, every text from its bytes behind their
length and every bit pattern from its bytes in little-endian order.
-/
namespace Docket.Blob

namespace Varint

theorem fold_lt {value : Int} (hl : -2 ^ 63 ≤ value) (hu : value < 2 ^ 63) : fold value < 2 ^ 64 := by
  cases value with
  | ofNat n => simp only [fold, Int.ofNat_eq_natCast] at *; omega
  | negSucc n => simp only [fold, Int.negSucc_eq] at *; omega

/-- A group below 128 ends the number. -/
theorem yields_lastGroup (left place value n : Nat) (hn : n < 128) (hv : n * 2 ^ place + value < 2 ^ 64) :
    Yields (readGroups (left + 1) place value) [UInt8.ofNat n] (n * 2 ^ place + value) := by
  have hb : (UInt8.ofNat n).toNat = n := by rw [UInt8.toNat_ofNat']; omega
  have hlt : UInt8.ofNat n < 128 := by rw [UInt8.lt_iff_toNat_lt, hb]; exact hn
  refine (yields_byte (UInt8.ofNat n)).bind_nil ?_
  rw [hb, Nat.mod_eq_of_lt hn, if_pos hlt, Nat.add_comm value, Nat.mod_eq_of_lt hv]
  exact yields_pure _

/-- The groups of a number, read at the place where they belong and on top of
what was read of it before. -/
theorem yields_readGroups (left place value n : Nat) (hn : n < 128 ^ (left + 1))
    (hv : n * 2 ^ place + value < 2 ^ 64) :
    Yields (readGroups (left + 1) place value) (groups n) (n * 2 ^ place + value) := by
  induction left generalizing place value n with
  | zero =>
      have hs : n < 128 := by simpa using hn
      rw [groups, if_pos hs]
      exact yields_lastGroup 0 place value n hs hv
  | succ left ih =>
      by_cases hs : n < 128
      · rw [groups, if_pos hs]
        exact yields_lastGroup (left + 1) place value n hs hv
      · have hb : (UInt8.ofNat (n % 128 + 128)).toNat = n % 128 + 128 := by
          rw [UInt8.toNat_ofNat']
          omega
        have hge : ¬UInt8.ofNat (n % 128 + 128) < 128 := by
          rw [UInt8.lt_iff_toNat_lt, hb]
          exact Nat.not_lt.2 (Nat.le_add_left 128 _)
        have hlow : (n % 128 + 128) % 128 = n % 128 := by omega
        -- the low group at this place and the others at the next one make up the number
        have hsum : n / 128 * 2 ^ (place + 7) + (value + n % 128 * 2 ^ place) = n * 2 ^ place + value := by
          have hp : n / 128 * 2 ^ (place + 7) = n / 128 * 128 * 2 ^ place := by
            rw [Nat.pow_add, Nat.mul_comm (2 ^ place), ← Nat.mul_assoc]
          have hm : n / 128 * 128 * 2 ^ place + n % 128 * 2 ^ place = n * 2 ^ place := by
            rw [← Nat.add_mul, Nat.div_add_mod']
          omega
        have hq : n / 128 < 128 ^ (left + 1) := by
          rw [Nat.div_lt_iff_lt_mul (by decide), ← Nat.pow_succ]
          exact hn
        have hfit : value + n % 128 * 2 ^ place < 2 ^ 64 := by omega
        rw [groups, if_neg hs]
        refine (yields_byte _).bind (a := [_]) ?_
        rw [hb, hlow, Nat.mod_eq_of_lt hfit, if_neg hge, ← hsum]
        exact ih (place + 7) (value + n % 128 * 2 ^ place) (n / 128) hq (by omega)

theorem yields_read (value : Int64) : Yields read (encode value) value := by
  have hf : fold value.toInt < 2 ^ 64 := fold_lt value.le_toInt value.toInt_lt
  have h := yields_readGroups 9 0 0 (fold value.toInt) (by omega) (by omega)
  simp only [Nat.pow_zero, Nat.mul_one, Nat.add_zero] at h
  have hv := h.map fun n => Int64.ofInt (unfold n)
  rwa [unfold_fold, Int64.ofInt_toInt] at hv

theorem yields_readInt (value : Int32) : Yields readInt (encode value.toInt64) value := by
  have hi : value.toInt64.toInt = value.toInt := Int32.toInt_toInt64 value
  refine (yields_read value.toInt64).bind_nil ?_
  simp only [hi, if_pos (And.intro value.le_toInt value.toInt_lt), Int32.ofInt_toInt]
  exact yields_pure value

theorem toInt_ofNat {n : Nat} (hn : n < 2 ^ 63) : (Int64.ofNat n).toInt = .ofNat n :=
  Int64.toInt_ofNat_of_lt hn

theorem yields_readNat {n : Nat} (hn : n < 2 ^ 63) : Yields readNat (encodeNat n) n := by
  refine (yields_read (Int64.ofNat n)).bind_nil ?_
  rw [toInt_ofNat hn]
  exact yields_pure n

theorem yields_readCount {n : Nat} (hn : n < 2 ^ 63) : Yields readCount (encodeNat n) n := by
  refine (yields_read (Int64.ofNat n)).bind_nil ?_
  rw [toInt_ofNat hn]
  exact yields_pure n

theorem groups_ne_nil (n : Nat) : groups n ≠ [] := by
  rw [groups]
  split <;> simp

theorem length_encodeNat_pos (n : Nat) : 0 < (encodeNat n).length :=
  List.length_pos_iff.2 (groups_ne_nil _)

theorem length_encode_pos (value : Int64) : 0 < (encode value).length :=
  List.length_pos_iff.2 (groups_ne_nil _)

end Varint

theorem length_text (s : String) : (Text.Utf8.encode s).length = s.utf8ByteSize := by
  rw [Text.Utf8.encode, Array.length_toList]
  exact String.size_toByteArray

theorem decode_text (s : String) : Text.Utf8.decode (Text.Utf8.encode s) = .ok s := by
  have hb : (⟨(Text.Utf8.encode s).toArray⟩ : ByteArray) = s.toByteArray := rfl
  have h : String.fromUTF8? ⟨(Text.Utf8.encode s).toArray⟩ = some s := by
    rw [hb, String.fromUTF8?, dif_pos s.isValidUTF8]
    rfl
  simp only [Text.Utf8.decode, h]

theorem yields_readBytes {bytes : List UInt8} (h : bytes.length < 2 ^ 63) :
    Yields readBytes (counted bytes) bytes :=
  (Varint.yields_readNat h).bind (yields_slice bytes)

theorem yields_readText {s : String} (h : s.utf8ByteSize < 2 ^ 63) : Yields readText (encodeText s) s := by
  have hl : (Text.Utf8.encode s).length < 2 ^ 63 := by rw [length_text]; exact h
  refine (Varint.yields_readNat hl).bind ?_
  refine (yields_slice (Text.Utf8.encode s)).bind_nil ?_
  rw [decode_text]
  exact yields_pure s

/-- A bit pattern of some bytes, packed into a value. -/
theorem yields_word {α : Type} (count n : Nat) (hn : n < 256 ^ count) (g : Nat → α) :
    Yields (do return g (ofLittleEndian (← slice count))) (littleEndian count n) (g n) := by
  have h := (yields_slice (littleEndian count n)).map fun bytes => g (ofLittleEndian bytes)
  rwa [length_littleEndian, ofLittleEndian_littleEndian, Nat.mod_eq_of_lt hn] at h

end Docket.Blob
