import Docket.Text.Base64

/-!
# Base64 is read as it was written

A text is the symbols of six bits each, then padding up to a multiple of four. The
reader takes its last block of eight apart from those before it, so reading is
followed once over symbols and once over padding; what is cut between whole groups
of four can be unpacked piece by piece.
-/
namespace Docket.Text.Base64

/-- The six bits at a time of bytes, the last group filled up with zeros. -/
def sextets : List UInt8 → List Nat
  | [] => []
  | [a] => [a.toNat * 16 / 64, a.toNat * 16 % 64]
  | [a, b] =>
      let n := (a.toNat * 256 + b.toNat) * 4
      [n / 4096, n / 64 % 64, n % 64]
  | a :: b :: c :: rest =>
      let n := (a.toNat * 256 + b.toNat) * 256 + c.toNat
      n / 262144 :: n / 4096 % 64 :: n / 64 % 64 :: n % 64 :: sextets rest

/-- How many padding signs fill up the last group. -/
def padding : List UInt8 → Nat
  | [] => 0
  | [_] => 2
  | [_, _] => 1
  | _ :: _ :: _ :: rest => padding rest

def symbolByte (n : Nat) : UInt8 :=
  (symbol n).val.toUInt8

theorem symbols_eq (bytes : List UInt8) :
    symbols bytes = (sextets bytes).map symbol ++ List.replicate (padding bytes) '=' := by
  fun_induction symbols bytes with
  | case1 => rfl
  | case2 a => rfl
  | case3 a b => rfl
  | case4 a b c rest n ih => simp [sextets, padding, ih, n]

theorem padding_le (bytes : List UInt8) : padding bytes ≤ 2 := by
  fun_induction padding bytes <;> omega

theorem length_sextets (bytes : List UInt8) : ((sextets bytes).length + padding bytes) % 4 = 0 := by
  fun_induction sextets bytes with
  | case1 => rfl
  | case2 a => simp [padding]
  | case3 a b => simp [padding]
  | case4 a b c rest n ih =>
      simp only [List.length_cons, padding]
      omega

theorem sextets_lt (bytes : List UInt8) : ∀ v ∈ sextets bytes, v < 64 := by
  fun_induction sextets bytes with
  | case1 => simp
  | case2 a =>
      have ha := a.toNat_lt
      simp only [List.mem_cons, List.not_mem_nil, or_false]
      rintro v (rfl | rfl) <;> omega
  | case3 a b n =>
      have ha := a.toNat_lt
      have hb := b.toNat_lt
      simp only [List.mem_cons, List.not_mem_nil, or_false]
      rintro v (rfl | rfl | rfl) <;> omega
  | case4 a b c rest n ih =>
      have ha := a.toNat_lt
      have hb := b.toNat_lt
      have hc := c.toNat_lt
      simp only [List.mem_cons]
      rintro v (rfl | rfl | rfl | rfl | hv)
      case inr.inr.inr.inr => exact ih v hv
      all_goals omega

theorem ofNat_eq {a : UInt8} {n : Nat} (h : n % 256 = a.toNat) : UInt8.ofNat n = a := by
  apply UInt8.toNat_inj.1
  rw [UInt8.toNat_ofNat', h]

theorem unpack_sextets (bytes : List UInt8) : unpack (sextets bytes) = (bytes, 0) := by
  fun_induction sextets bytes with
  | case1 => rfl
  | case2 a =>
      have ha := a.toNat_lt
      have h : UInt8.ofNat ((a.toNat * 16 / 64 * 64 + a.toNat * 16 % 64) / 16) = a := ofNat_eq (by omega)
      have hz : (a.toNat * 16 / 64 * 64 + a.toNat * 16 % 64) % 16 = 0 := by omega
      simp only [unpack, h, hz]
  | case3 a b n =>
      have ha := a.toNat_lt
      have hb := b.toNat_lt
      have hn : (n / 4096 * 64 + n / 64 % 64) * 64 + n % 64 = n := by omega
      have h : UInt8.ofNat (n / 1024) = a := ofNat_eq (by omega)
      have h' : UInt8.ofNat (n / 4) = b := ofNat_eq (by omega)
      have hz : n % 4 = 0 := by omega
      simp only [unpack, hn, h, h', hz]
  | case4 a b c rest n ih =>
      have ha := a.toNat_lt
      have hb := b.toNat_lt
      have hc := c.toNat_lt
      have hn : ((n / 262144 * 64 + n / 4096 % 64) * 64 + n / 64 % 64) * 64 + n % 64 = n := by omega
      have h : UInt8.ofNat (n / 65536) = a := ofNat_eq (by omega)
      have h' : UInt8.ofNat (n / 256) = b := ofNat_eq (by omega)
      have h'' : UInt8.ofNat n = c := ofNat_eq (by omega)
      simp only [unpack, hn, h, h', h'', ih]

/-- Between whole groups of four, unpacking can be cut. -/
theorem unpack_append {vs : List Nat} (h : vs.length % 4 = 0) (ws : List Nat) :
    unpack (vs ++ ws) = ((unpack vs).1 ++ (unpack ws).1, (unpack ws).2) := by
  fun_induction unpack vs with
  | case1 a b c d rest n bytes left hu ih =>
      have hr : rest.length % 4 = 0 := by
        simp only [List.length_cons] at h
        omega
      rw [hu] at ih
      simp only [List.cons_append, unpack, ih hr, n]
  | case2 a b c n => simp at h
  | case3 a b n => simp at h
  | case4 a => simp at h
  | case5 => rfl

/-! ### Reading symbols and padding -/

/-- Every symbol is one byte of text, has the number it was taken for, and is no
padding. -/
theorem symbolByte_spec {v : Nat} (h : v < 64) : value? (symbolByte v) = some v ∧ symbolByte v ≠ pad ∧
    String.utf8EncodeChar (symbol v) = [symbolByte v] := by
  have all : ∀ v < 64, value? (symbolByte v) = some v ∧ symbolByte v ≠ pad ∧
      String.utf8EncodeChar (symbol v) = [symbolByte v] := by
    decide +kernel
  exact all v h

theorem values_symbolBytes {vs : List Nat} (h : ∀ v ∈ vs, v < 64) (offset : Nat) :
    values offset (vs.map symbolByte) = .ok vs := by
  induction vs generalizing offset with
  | nil => rfl
  | cons v vs ih =>
      obtain ⟨hv, h⟩ := List.forall_mem_cons.1 h
      simp only [List.map_cons, values, (symbolByte_spec hv).1, ih h]
      rfl

theorem read_symbolBytes {vs : List Nat} (h : ∀ v ∈ vs, v < 64) {t : Tail} (ht : t.padding = 0)
    (start index : Nat) (rest : List UInt8) :
    ∃ last first, t.read start index (vs.map symbolByte ++ rest) =
      Tail.read ⟨t.values ++ vs, last, 0, first⟩ start (index + vs.length) rest := by
  induction vs generalizing t index with
  | nil =>
      obtain ⟨read, last, count, first⟩ := t
      have hz : count = 0 := ht
      subst hz
      exact ⟨last, first, by simp⟩
  | cons v vs ih =>
      obtain ⟨hv, h⟩ := List.forall_mem_cons.1 h
      have hp : t.push start index (symbolByte v) =
          .ok { t with values := t.values ++ [v], lastSymbol := symbolByte v } := by
        simp only [Tail.push, if_neg (symbolByte_spec hv).2.1, ht, Nat.lt_irrefl, if_false, (symbolByte_spec hv).1]
      obtain ⟨last, first, hr⟩ := ih h (t := { t with values := t.values ++ [v], lastSymbol := symbolByte v })
        ht (index + 1)
      refine ⟨last, first, ?_⟩
      rw [List.map_cons, List.cons_append, Tail.read, hp]
      simp only [Except.bind]
      rw [hr, List.append_assoc, List.length_cons, Nat.add_assoc, Nat.add_comm 1]
      rfl

/-- Padding up to the end of a group of four, from its third place on. -/
theorem read_pads {count index : Nat} (hc : count ≤ 2) (hi : (index + count) % 4 = 0) (t : Tail) (start : Nat) :
    ∃ first, t.read start index (List.replicate count pad) =
      .ok ⟨t.values, t.lastSymbol, t.padding + count, first⟩ := by
  induction count generalizing index t with
  | zero => exact ⟨t.firstPadding, rfl⟩
  | succ count ih =>
      have hplace : ¬index % 4 < 2 := by omega
      have hp : ∃ first, t.push start index pad = .ok ⟨t.values, t.lastSymbol, t.padding + 1, first⟩ := by
        simp only [Tail.push, if_neg hplace, if_true]
        exact ⟨_, rfl⟩
      obtain ⟨first, hp⟩ := hp
      obtain ⟨last, hr⟩ := ih (by omega) (by omega : (index + 1 + count) % 4 = 0)
        ⟨t.values, t.lastSymbol, t.padding + 1, first⟩
      refine ⟨last, ?_⟩
      rw [List.replicate_succ, Tail.read, hp]
      simp only [Except.bind]
      rw [hr]
      simp only [Nat.add_assoc, Nat.add_comm 1]

/-- The bytes of the text that writes `bytes`. -/
def textBytes (bytes : List UInt8) : List UInt8 :=
  (sextets bytes).map symbolByte ++ List.replicate (padding bytes) pad

/-- The last block, symbols and then padding, is read as its numbers. -/
theorem read_block {vs : List Nat} {count : Nat} (h : ∀ v ∈ vs, v < 64) (hc : count ≤ 2)
    (hl : (vs.length + count) % 4 = 0) (start : Nat) :
    ∃ last first, Tail.read {} start 0 (vs.map symbolByte ++ List.replicate count pad) =
      .ok ⟨vs, last, count, first⟩ := by
  obtain ⟨last, first, hr⟩ := read_symbolBytes h (t := {}) rfl start 0 (List.replicate count pad)
  have hend : (0 + vs.length + count) % 4 = 0 := by omega
  obtain ⟨first', hp⟩ := read_pads hc hend ⟨[] ++ vs, last, 0, first⟩ start
  refine ⟨last, first', ?_⟩
  rw [hr, hp]
  simp

/-- Whole groups of four that leave no bits over are taken for their bytes. -/
theorem bytes_block {vs : List Nat} {count : Nat} (hl : (count + vs.length) % 4 = 0) (hz : (unpack vs).2 = 0)
    (last : UInt8) (first start : Nat) :
    Tail.bytes ⟨vs, last, count, first⟩ start = .ok (unpack vs).1 := by
  cases hu : unpack vs with
  | mk read left =>
      rw [hu] at hz
      have hz : left = 0 := hz
      subst hz
      simp only [Tail.bytes, hl, hu, ne_eq, not_true_eq_false, if_false]

theorem decodeBytes_textBytes (bytes : List UInt8) : decodeBytes (textBytes bytes) = .ok bytes := by
  have hlength : (textBytes bytes).length = (sextets bytes).length + padding bytes := by
    simp [textBytes]
  have hgroups := length_sextets bytes
  have hpad := padding_le bytes
  have hlt := sextets_lt bytes
  have hunpack := unpack_sextets bytes
  generalize hvs : sextets bytes = vs at *
  generalize hk : padding bytes = count at *
  -- the last block begins with a whole group and holds all of the padding
  obtain ⟨start, hstart⟩ : ∃ start, start = 8 * ((vs.length + count - 1) / 8) := ⟨_, rfl⟩
  have hle : start ≤ vs.length := by omega
  have htake : (textBytes bytes).take start = (vs.take start).map symbolByte := by
    rw [textBytes, hvs, List.take_append_of_le_length (by rw [List.length_map]; exact hle), List.map_take]
  have hdrop : (textBytes bytes).drop start = (vs.drop start).map symbolByte ++ List.replicate count pad := by
    rw [textBytes, hvs, hk, List.drop_append_of_le_length (by rw [List.length_map]; exact hle), List.map_drop]
  have hhead : values 0 ((textBytes bytes).take start) = .ok (vs.take start) := by
    rw [htake]
    exact values_symbolBytes (fun v hv => hlt v (List.mem_of_mem_take hv)) 0
  have hend : ((vs.drop start).length + count) % 4 = 0 := by
    rw [List.length_drop]
    omega
  obtain ⟨last, first, htail⟩ := read_block (fun v hv => hlt v (List.mem_of_mem_drop hv)) hpad hend start
  have hcut : unpack vs = ((unpack (vs.take start)).1 ++ (unpack (vs.drop start)).1, (unpack (vs.drop start)).2) := by
    have hl : (vs.take start).length % 4 = 0 := by
      rw [List.length_take]
      omega
    rw [← unpack_append hl, List.take_append_drop]
  rw [hunpack] at hcut
  obtain ⟨hbytes, hleft⟩ := Prod.mk.inj hcut
  have hlast := bytes_block (by omega : (count + (vs.drop start).length) % 4 = 0) hleft.symm last first start
  have hmod : ¬(vs.length + count) % 4 = 1 := by omega
  rw [decodeBytes, hlength]
  simp only [if_neg hmod, ← hstart, hhead, hdrop, htail, hlast, bind, Except.bind, pure, Except.pure]
  rw [← hbytes]

theorem utf8_symbols {vs : List Nat} (h : ∀ v ∈ vs, v < 64) :
    (vs.map symbol).flatMap String.utf8EncodeChar = vs.map symbolByte := by
  induction vs with
  | nil => rfl
  | cons v vs ih =>
      obtain ⟨hv, h⟩ := List.forall_mem_cons.1 h
      rw [List.map_cons, List.flatMap_cons, (symbolByte_spec hv).2.2, ih h]
      rfl

theorem utf8_pads (count : Nat) :
    (List.replicate count '=').flatMap String.utf8EncodeChar = List.replicate count pad := by
  induction count with
  | zero => rfl
  | succ count ih =>
      rw [List.replicate_succ, List.flatMap_cons, ih]
      rfl

theorem bytes_encode (bytes : List UInt8) : (encode bytes).toUTF8.data.toList = textBytes bytes := by
  have hb : (encode bytes).toUTF8 = (symbols bytes).utf8Encode := String.toByteArray_ofList
  rw [hb, List.utf8Encode, List.toList_data_toByteArray, symbols_eq, List.flatMap_append,
    utf8_symbols (sextets_lt bytes), utf8_pads]
  rfl

/-- Every byte string is read back from its text. -/
theorem decode_encode (bytes : List UInt8) : decode (encode bytes) = .ok bytes := by
  rw [decode, bytes_encode]
  exact decodeBytes_textBytes bytes

end Docket.Text.Base64
