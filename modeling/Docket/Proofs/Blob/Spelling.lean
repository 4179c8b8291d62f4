import Docket.Proofs.Blob.Front

/-!
# The number that a varint spells

A varint is ten bytes at most, all but the last marked. It spells a number, seven bits
a byte, least significant first. The reader takes exactly such bytes off the front and
refuses everything else; what it gives is the number as far as 64 bits hold it. Of nine
marked bytes and a tenth that is more than one, they do not hold it: then bits are
dropped, and only then.
-/
namespace Docket.Blob

variable {α : Type} {r : Read α} {P : List UInt8 → α → Prop}

/-- A reader that takes bytes of one kind only and yields a value from all of these
reads them and nothing else. -/
theorem Takes.eq_ok_iff (hr : Takes r P) (hy : ∀ {bytes x}, P bytes x → Yields r bytes x) {c c' : Cursor} {x : α} :
    r c = .ok (x, c') ↔
      ∃ bytes, P bytes x ∧ c.rest = bytes ++ c'.rest ∧ c'.offset = c.offset + bytes.length := by
  obtain ⟨offset, rest⟩ := c
  obtain ⟨offset', rest'⟩ := c'
  constructor
  · intro h
    obtain ⟨bytes, hrest, hp⟩ := hr h
    obtain rfl : rest = bytes ++ rest' := hrest
    rw [hy hp offset rest'] at h
    injection h with h
    injection h with _ h
    injection h with h _
    exact ⟨bytes, hp, rfl, h.symm⟩
  · rintro ⟨bytes, hp, hrest, hoffset⟩
    obtain rfl : rest = bytes ++ rest' := hrest
    obtain rfl : offset' = offset + bytes.length := hoffset
    exact hy hp offset rest'

theorem takes_byte_self : Takes byte fun bytes b => bytes = [b] := by
  intro c c' b h
  obtain ⟨offset, rest⟩ := c
  cases rest with
  | nil => cases h
  | cons _ rest =>
      cases h
      exact ⟨[b], rfl, rfl⟩

namespace Varint

/-- The number that groups of seven bits spell, least significant first. -/
def spelled : List UInt8 → Nat
  | [] => 0
  | b :: rest => b.toNat % 128 + 128 * spelled rest

theorem spelled_append (bytes others : List UInt8) :
    spelled (bytes ++ others) = spelled bytes + 128 ^ bytes.length * spelled others := by
  induction bytes with
  | nil => simp [spelled]
  | cons b bytes ih =>
      rw [List.cons_append, spelled, spelled, ih, List.length_cons, Nat.pow_succ, Nat.mul_add, ← Nat.mul_assoc,
        Nat.mul_comm 128 (128 ^ bytes.length), Nat.add_assoc]

theorem spelled_lt (bytes : List UInt8) : spelled bytes < 128 ^ bytes.length := by
  induction bytes with
  | nil => exact Nat.one_pos
  | cons b bytes ih =>
      rw [spelled, List.length_cons, Nat.pow_succ]
      omega

/-- At most so many bytes, of which all but the last are marked. -/
def Grouped (limit : Nat) (bytes : List UInt8) : Prop :=
  ∃ marked last, bytes = marked ++ [last] ∧ marked.length < limit ∧ (∀ b ∈ marked, 128 ≤ b) ∧ last < 128

theorem grouped_last {limit : Nat} {b : UInt8} (hb : b < 128) : Grouped (limit + 1) [b] :=
  ⟨[], b, rfl, Nat.succ_pos limit, fun _ h => absurd h List.not_mem_nil, hb⟩

theorem Grouped.cons {limit : Nat} {b : UInt8} {bytes : List UInt8} (hb : ¬b < 128) (h : Grouped limit bytes) :
    Grouped (limit + 1) (b :: bytes) := by
  obtain ⟨marked, last, rfl, hl, hm, hlast⟩ := h
  exact ⟨b :: marked, last, rfl, Nat.succ_lt_succ hl, List.forall_mem_cons.2 ⟨UInt8.not_lt.1 hb, hm⟩, hlast⟩

/-! ### What is read -/

/-- The groups that follow belong seven places further up. -/
theorem place_succ (value place : Nat) (b : UInt8) (bytes : List UInt8) :
    ((value + b.toNat % 128 * 2 ^ place) % 2 ^ 64 + spelled bytes * 2 ^ (place + 7)) % 2 ^ 64 =
      (value + spelled (b :: bytes) * 2 ^ place) % 2 ^ 64 := by
  have hplace : spelled bytes * 2 ^ (place + 7) = 128 * spelled bytes * 2 ^ place := by
    rw [Nat.pow_add, Nat.mul_comm (2 ^ place), ← Nat.mul_assoc, Nat.mul_comm (spelled bytes)]
  rw [Nat.mod_add_mod, hplace, spelled, Nat.add_mul, Nat.add_assoc]

theorem takes_grouped (left place value : Nat) : Takes (readGroups left place value) fun bytes n =>
    Grouped left bytes ∧ n = (value + spelled bytes * 2 ^ place) % 2 ^ 64 := by
  induction left generalizing place value with
  | zero => exact takes_fail .longVarint
  | succ left ih =>
      refine takes_byte_self.bind fun {bytes b} hb => ?_
      subst hb
      dsimp only
      split
      · rename_i hlast
        exact takes_pure ⟨grouped_last hlast, by simp [spelled]⟩
      · rename_i hmark
        refine (ih _ _).imp fun h => ?_
        obtain ⟨hg, rfl⟩ := h
        exact ⟨hg.cons hmark, place_succ _ _ _ _⟩

theorem yields_grouped {left : Nat} {bytes : List UInt8} (h : Grouped left bytes) (place value : Nat) :
    Yields (readGroups left place value) bytes ((value + spelled bytes * 2 ^ place) % 2 ^ 64) := by
  obtain ⟨marked, last, rfl, hl, hm, hlast⟩ := h
  induction marked generalizing left place value with
  | nil =>
      obtain ⟨left, rfl⟩ : ∃ n, left = n + 1 := ⟨left - 1, by simp only [List.length_nil] at hl; omega⟩
      refine (yields_byte last).bind_nil ?_
      dsimp only
      rw [if_pos hlast]
      simpa [spelled] using yields_pure ((value + last.toNat % 128 * 2 ^ place) % 2 ^ 64)
  | cons b marked ih =>
      obtain ⟨left, rfl⟩ : ∃ n, left = n + 1 := ⟨left - 1, by simp only [List.length_cons] at hl; omega⟩
      obtain ⟨hb, hm⟩ := List.forall_mem_cons.1 hm
      refine (yields_byte b).bind (a := [b]) ?_
      dsimp only
      rw [if_neg (UInt8.not_lt.2 hb), List.cons_append, ← place_succ]
      exact ih _ _ (Nat.lt_of_succ_lt_succ hl) hm

theorem toInt_unfold {n : Nat} (hn : n < 2 ^ 64) : (Int64.ofInt (unfold n)).toInt = unfold n := by
  have hl : -2 ^ 63 ≤ unfold n := by
    unfold unfold
    split <;> simp only [Int.ofNat_eq_natCast, Int.negSucc_eq] <;> omega
  have hu : unfold n < 2 ^ 63 := by
    unfold unfold
    split <;> simp only [Int.ofNat_eq_natCast, Int.negSucc_eq] <;> omega
  exact Int64.toInt_ofInt_of_le hl hu

/-- What is read at a place is what the bytes there spell, as far as 64 bits hold it. -/
theorem read_eq_ok_iff {c c' : Cursor} {value : Int64} : read c = .ok (value, c') ↔
    ∃ bytes, (Grouped 10 bytes ∧ value.toInt = unfold (spelled bytes % 2 ^ 64)) ∧
      c.rest = bytes ++ c'.rest ∧ c'.offset = c.offset + bytes.length := by
  have taken : Takes read fun bytes value => Grouped 10 bytes ∧ value.toInt = unfold (spelled bytes % 2 ^ 64) := by
    refine (takes_grouped 10 0 0).bind fun h => takes_pure ?_
    obtain ⟨hg, rfl⟩ := h
    rw [List.append_nil, Nat.zero_add, Nat.pow_zero, Nat.mul_one]
    exact ⟨hg, toInt_unfold (Nat.mod_lt _ (Nat.two_pow_pos 64))⟩
  refine taken.eq_ok_iff fun {bytes value} h => ?_
  obtain ⟨hg, hv⟩ := h
  have hy := (yields_grouped hg 0 0).map fun n => Int64.ofInt (unfold n)
  rw [Nat.zero_add, Nat.pow_zero, Nat.mul_one, ← hv, Int64.ofInt_toInt] at hy
  exact hy

/-! ### What is refused -/

/-- The bytes at a place are no varint of a number of bytes: they end too early, or the
mark goes on for too long. -/
inductive Unfinished (limit : Nat) (c : Cursor) : Fault → Prop where
  | short : c.rest.length < limit → (∀ b ∈ c.rest, 128 ≤ b) →
      Unfinished limit c (.shortage 1 (c.offset + c.rest.length) 0)
  | long {marked rest : List UInt8} : c.rest = marked ++ rest → marked.length = limit → (∀ b ∈ marked, 128 ≤ b) →
      Unfinished limit c .longVarint

theorem unfinished_cons {limit offset : Nat} {b : UInt8} {rest : List UInt8} {fault : Fault} (hb : ¬b < 128) :
    Unfinished (limit + 1) ⟨offset, b :: rest⟩ fault ↔ Unfinished limit ⟨offset + 1, rest⟩ fault := by
  have hmark : 128 ≤ b := UInt8.not_lt.1 hb
  constructor
  · intro h
    cases h with
    | short hl hm =>
        have hs := Unfinished.short (c := ⟨offset + 1, rest⟩) (Nat.lt_of_succ_lt_succ hl) (List.forall_mem_cons.1 hm).2
        rw [List.length_cons]
        rwa [Nat.add_right_comm] at hs
    | @long marked others hr hl hm =>
        cases marked with
        | nil => cases hl
        | cons first marked =>
            obtain rfl : rest = marked ++ others := (List.cons.inj hr).2
            exact .long rfl (Nat.succ.inj hl) (List.forall_mem_cons.1 hm).2
  · intro h
    cases h with
    | short hl hm =>
        have hmarks := List.forall_mem_cons.2 ⟨hmark, hm⟩
        have hs := Unfinished.short (c := ⟨offset, b :: rest⟩) (Nat.succ_lt_succ hl) hmarks
        rwa [List.length_cons, ← Nat.add_assoc, Nat.add_right_comm] at hs
    | @long marked others hr hl hm =>
        have hmarked : b :: rest = (b :: marked) ++ others := congrArg (b :: ·) hr
        exact .long hmarked (congrArg Nat.succ hl)
          (List.forall_mem_cons.2 ⟨hmark, hm⟩)

theorem readGroups_eq_error_iff {left : Nat} (place value : Nat) {c : Cursor} {fault : Fault} :
    readGroups left place value c = .error fault ↔ Unfinished left c fault := by
  induction left generalizing place value c with
  | zero =>
      constructor
      · intro h
        cases h
        exact .long (List.nil_append c.rest).symm rfl fun _ hm => absurd hm List.not_mem_nil
      · intro h
        cases h with
        | short hl _ => exact absurd hl (Nat.not_lt_zero _)
        | long => rfl
  | succ left ih =>
      obtain ⟨offset, rest⟩ := c
      cases rest with
      | nil =>
          constructor
          · intro h
            cases h
            exact .short (Nat.succ_pos left) fun _ hm => absurd hm List.not_mem_nil
          · intro h
            cases h with
            | short => rfl
            | @long marked _ hr hl _ =>
                obtain ⟨rfl, -⟩ := List.append_eq_nil_iff.1 hr.symm
                cases hl
      | cons b rest =>
          rw [readGroups, bind_of_ok (show byte ⟨offset, b :: rest⟩ = .ok (b, ⟨offset + 1, rest⟩) from rfl)]
          split
          · rename_i hlast
            constructor
            · intro h
              cases h
            · -- the first byte is not marked, so the bytes are not unfinished
              intro h
              cases h with
              | short _ hm => exact absurd hlast (UInt8.not_lt.2 (hm b List.mem_cons_self))
              | @long marked _ hr hl hm =>
                  cases marked with
                  | nil => cases hl
                  | cons first marked =>
                      obtain ⟨rfl, -⟩ := List.cons.inj hr
                      exact absurd hlast (UInt8.not_lt.2 (hm b List.mem_cons_self))
          · rename_i hmark
            rw [ih, unfinished_cons hmark]

theorem read_eq_error_iff {c : Cursor} {fault : Fault} : read c = .error fault ↔ Unfinished 10 c fault := by
  rw [← readGroups_eq_error_iff 0 0]
  cases h : readGroups 10 0 0 c with
  | error other =>
      rw [read, bind_of_error h, Except.error.injEq, Except.error.injEq]
  | ok result =>
      rw [read, bind_of_ok h]
      constructor <;> exact fun he => nomatch he

/-! ### What 64 bits hold -/

/-- Nine groups have room for 63 bits; a tenth may bring one more. -/
theorem two_pow_le_spelled_iff {bytes : List UInt8} (h : Grouped 10 bytes) : 2 ^ 64 ≤ spelled bytes ↔
    ∃ marked tenth, bytes = marked ++ [tenth] ∧ marked.length = 9 ∧ 1 < tenth := by
  obtain ⟨marked, last, rfl, hl, -, hlast⟩ := h
  have hlow := spelled_lt marked
  have hsmall : last.toNat < 128 := UInt8.lt_iff_toNat_lt.1 hlast
  have hdigit : last.toNat % 128 = last.toNat := Nat.mod_eq_of_lt hsmall
  rw [spelled_append, spelled, spelled, hdigit, Nat.mul_zero, Nat.add_zero]
  constructor
  · intro hs
    have hnine : marked.length = 9 := by
      refine Nat.le_antisymm (Nat.le_of_lt_succ hl) (Nat.not_lt.1 fun hfewer => ?_)
      have hfew : 128 ^ (marked.length + 1) ≤ 128 ^ 9 := Nat.pow_le_pow_right (by decide) hfewer
      have hroom : 128 ^ marked.length * last.toNat ≤ 128 ^ marked.length * 127 := Nat.mul_le_mul_left _ (by omega)
      rw [Nat.pow_succ] at hfew
      omega
    refine ⟨marked, last, rfl, hnine, UInt8.lt_iff_toNat_lt.2 ?_⟩
    rw [hnine] at hs hlow
    have hone : (1 : UInt8).toNat = 1 := rfl
    omega
  · rintro ⟨others, tenth, he, hn, ht⟩
    obtain ⟨rfl, hlast⟩ := List.append_inj' he rfl
    obtain rfl := (List.cons.inj hlast).1
    have ht : 1 < last.toNat := UInt8.lt_iff_toNat_lt.1 ht
    rw [hn]
    omega

/-- A varint stands here whose tenth byte is more than one. -/
def Overfull (c : Cursor) : Prop :=
  ∃ marked tenth rest, c.rest = marked ++ tenth :: rest ∧ marked.length = 9 ∧ (∀ b ∈ marked, 128 ≤ b) ∧
    1 < tenth ∧ tenth < 128

theorem overfull_iff {c : Cursor} :
    Overfull c ↔ ∃ bytes rest, c.rest = bytes ++ rest ∧ Grouped 10 bytes ∧ 2 ^ 64 ≤ spelled bytes := by
  constructor
  · rintro ⟨marked, tenth, rest, hr, hn, hm, ht, hlast⟩
    have hg : Grouped 10 (marked ++ [tenth]) := ⟨marked, tenth, rfl, by omega, hm, hlast⟩
    refine ⟨marked ++ [tenth], rest, ?_, hg, (two_pow_le_spelled_iff hg).2 ⟨marked, tenth, rfl, hn, ht⟩⟩
    rw [hr, List.append_assoc, List.singleton_append]
  · rintro ⟨bytes, rest, hr, hg, hs⟩
    obtain ⟨marked, tenth, rfl, hn, ht⟩ := (two_pow_le_spelled_iff hg).1 hs
    obtain ⟨others, last, he, -, hm, hlast⟩ := hg
    obtain ⟨rfl, hsame⟩ := List.append_inj' he rfl
    obtain rfl := (List.cons.inj hsame).1
    exact ⟨marked, tenth, rest, by rw [hr, List.append_assoc, List.singleton_append], hn, hm, ht, hlast⟩

/-- What is read at a place is exactly the number that a varint there spells, if it is
below 2^64, and nothing is read otherwise. -/
def Exact (c : Cursor) : Prop :=
  ∀ value c', read c = .ok (value, c') ↔
    ∃ bytes, (Grouped 10 bytes ∧ spelled bytes < 2 ^ 64 ∧ value.toInt = unfold (spelled bytes)) ∧
      c.rest = bytes ++ c'.rest ∧ c'.offset = c.offset + bytes.length

theorem not_exact_of_overfull {c : Cursor} (h : Overfull c) : ¬Exact c := by
  intro he
  obtain ⟨bytes, rest, hr, hg, hs⟩ := overfull_iff.1 h
  have hlow : spelled bytes % 2 ^ 64 < 2 ^ 64 := Nat.mod_lt _ (Nat.two_pow_pos 64)
  have hread : read c = .ok (Int64.ofInt (unfold (spelled bytes % 2 ^ 64)), ⟨c.offset + bytes.length, rest⟩) :=
    read_eq_ok_iff.2 ⟨bytes, ⟨hg, toInt_unfold hlow⟩, hr, rfl⟩
  -- the reading ends behind these bytes, so no other bytes can be meant
  obtain ⟨others, ⟨-, hfits, -⟩, hothers, hend⟩ := (he _ _).1 hread
  have hsame : bytes ++ rest = others ++ rest := hr.symm.trans hothers
  obtain rfl : bytes = others := List.append_cancel_right hsame
  omega

/-- Reading gives the number that the varint at a place spells modulo 2^64, consumes
the varint and nothing else, and fails where there is none. It is exact but for a
varint of ten bytes whose tenth is more than one. -/
theorem read_exact_iff (c : Cursor) :
    (∀ value c', read c = .ok (value, c') ↔
      ∃ bytes, (Grouped 10 bytes ∧ value.toInt = unfold (spelled bytes % 2 ^ 64)) ∧
        c.rest = bytes ++ c'.rest ∧ c'.offset = c.offset + bytes.length) ∧
    (∀ fault, read c = .error fault ↔ Unfinished 10 c fault) ∧
    (Exact c ↔ ¬Overfull c) := by
  refine ⟨fun _ _ => read_eq_ok_iff, fun _ => read_eq_error_iff, fun he ho => not_exact_of_overfull ho he, ?_⟩
  intro hno value c'
  rw [read_eq_ok_iff]
  refine exists_congr fun bytes => and_congr_left fun ⟨hr, _⟩ => and_congr_right fun hg => ?_
  have hfits : spelled bytes < 2 ^ 64 :=
    Nat.not_le.1 fun hs => hno (overfull_iff.2 ⟨bytes, c'.rest, hr, hg, hs⟩)
  rw [Nat.mod_eq_of_lt hfits, and_iff_right hfits]

/-- Nine marked bytes that spell nothing, and a tenth. -/
def tenBytes : List UInt8 :=
  List.replicate 9 128 ++ [2]

/-- The ten bytes spell 2^64, and zero is read of them. -/
theorem read_drops_bit :
    spelled tenBytes = 2 ^ 64 ∧ read (.start tenBytes) = .ok (0, ⟨10, []⟩) ∧ ¬Exact (.start tenBytes) := by
  have hmarks : ∀ b ∈ List.replicate 9 (128 : UInt8), 128 ≤ b :=
    fun b hb => List.eq_of_mem_replicate hb ▸ UInt8.le_refl 128
  have hg : Grouped 10 tenBytes := ⟨List.replicate 9 128, 2, rfl, by decide, hmarks, by decide⟩
  have hs : spelled tenBytes = 2 ^ 64 := by decide
  refine ⟨hs, read_eq_ok_iff.2 ⟨tenBytes, ⟨hg, by rw [hs]; rfl⟩, rfl, rfl⟩, not_exact_of_overfull ?_⟩
  exact overfull_iff.2 ⟨tenBytes, [], rfl, hg, Nat.le_of_eq hs.symm⟩

end Varint

end Docket.Blob
