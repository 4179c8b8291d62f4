import Docket.Blob.Decode

/-!
# What a reader does with given bytes

A reader yields a value from bytes when it takes exactly these bytes off every
input that begins with them, wherever the input stands and whatever follows. It
refuses them when it fails on every such input. Both compose along the steps of a
reader, and a reader that yields under a condition and refuses otherwise settles
the bytes: which of two faults comes first is then of no concern.
-/
namespace Docket.Blob

variable {α β : Type} {r : Read α} {f : α → Read β} {a b : List UInt8} {x : α} {y : β}

theorem bind_of_ok {c c' : Cursor} (h : r c = .ok (x, c')) : (r >>= f) c = f x c' := by
  simp [bind, StateT.bind, Except.bind, h]

theorem bind_of_error {c : Cursor} {fault : Fault} (h : r c = .error fault) :
    (r >>= f) c = .error fault := by
  simp [bind, StateT.bind, Except.bind, h]

theorem ok_of_bind {c c' : Cursor} (h : (r >>= f) c = .ok (y, c')) :
    ∃ x between, r c = .ok (x, between) ∧ f x between = .ok (y, c') := by
  cases hr : r c with
  | error fault =>
      rw [bind_of_error hr] at h
      cases h
  | ok result =>
      obtain ⟨x, between⟩ := result
      rw [bind_of_ok hr] at h
      exact ⟨x, between, rfl, h⟩

/-- A blob is acceptable if the value is read to the last byte. -/
theorem decodeWith_eq_ok_iff {guard : Guard} {s : Schema} {bytes : List UInt8} {old value : Datum} :
    decodeWith guard s bytes old = .ok value ↔
      ∃ offset, readDatum guard s old (.start bytes) = .ok (value, ⟨offset, []⟩) := by
  unfold decodeWith
  cases readDatum guard s old (.start bytes) with
  | error fault =>
      constructor
      · intro h
        cases h
      · rintro ⟨offset, h⟩
        cases h
  | ok result =>
      obtain ⟨read, offset, rest⟩ := result
      cases rest with
      | nil =>
          constructor
          · intro h
            cases h
            exact ⟨offset, rfl⟩
          · rintro ⟨offset, h⟩
            cases h
            rfl
      | cons b rest =>
          constructor
          · intro h
            cases h
          · rintro ⟨offset, h⟩
            cases h

/-- Decoding is reading with the guard; a fault is told as a malformed blob. -/
theorem decode_eq_ok_iff_everyBlock {s : Schema} {bytes : List UInt8} {old value : Datum} :
    decode s bytes old = .ok value ↔ decodeWith .everyBlock s bytes old = .ok value := by
  unfold decode
  cases decodeWith .everyBlock s bytes old with
  | error fault =>
      constructor <;> intro h <;> cases h
  | ok read =>
      constructor <;> intro h <;> cases h <;> rfl

theorem decode_eq_ok_iff {s : Schema} {bytes : List UInt8} {old value : Datum} :
    decode s bytes old = .ok value ↔
      ∃ offset, readDatum .everyBlock s old (.start bytes) = .ok (value, ⟨offset, []⟩) :=
  decode_eq_ok_iff_everyBlock.trans decodeWith_eq_ok_iff

/-- The reader takes the bytes off any input and gives the value. -/
def Yields (r : Read α) (bytes : List UInt8) (value : α) : Prop :=
  ∀ offset suffix, r ⟨offset, bytes ++ suffix⟩ = .ok (value, ⟨offset + bytes.length, suffix⟩)

/-- The reader fails on any input that begins with the bytes. -/
def Refuses (r : Read α) (bytes : List UInt8) : Prop :=
  ∀ offset suffix, ∃ fault, r ⟨offset, bytes ++ suffix⟩ = .error fault

/-- The reader yields the value under a condition and refuses the bytes otherwise. -/
structure Settles (r : Read α) (bytes : List UInt8) (value : α) (p : Prop) : Prop where
  yields : p → Yields r bytes value
  refuses : ¬p → Refuses r bytes

theorem yields_pure (x : α) : Yields (pure x : Read α) [] x :=
  fun _ _ => rfl

theorem Yields.bind (hr : Yields r a x) (hf : Yields (f x) b y) : Yields (r >>= f) (a ++ b) y := by
  intro offset suffix
  rw [List.append_assoc, bind_of_ok (hr offset (b ++ suffix)), hf, List.length_append, Nat.add_assoc]

/-- A last step that reads nothing more. -/
theorem Yields.bind_nil (hr : Yields r a x) (hf : Yields (f x) [] y) : Yields (r >>= f) a y := by
  have h := hr.bind hf
  rwa [List.append_nil] at h

theorem Yields.map (hr : Yields r a x) (g : α → β) : Yields (do return g (← r)) a (g x) :=
  hr.bind_nil (yields_pure (g x))

theorem Yields.inj {z : α} (hx : Yields r a x) (hz : Yields r a z) : x = z := by
  have h := (hx 0 []).symm.trans (hz 0 [])
  injection h with h
  exact congrArg Prod.fst h

theorem Refuses.bind (hr : Refuses r a) : Refuses (r >>= f) a := by
  intro offset suffix
  obtain ⟨fault, h⟩ := hr offset suffix
  exact ⟨fault, bind_of_error h⟩

/-- What is refused is refused with more bytes behind it. -/
theorem Refuses.append (hr : Refuses r a) (b : List UInt8) : Refuses r (a ++ b) := by
  intro offset suffix
  rw [List.append_assoc]
  exact hr offset (b ++ suffix)

theorem Yields.bind_refuses (hr : Yields r a x) (hf : Refuses (f x) b) : Refuses (r >>= f) (a ++ b) := by
  intro offset suffix
  rw [List.append_assoc, bind_of_ok (hr offset (b ++ suffix))]
  exact hf _ suffix

theorem Yields.settles {p : Prop} (hr : Yields r a x) (hp : p) : Settles r a x p :=
  ⟨fun _ => hr, fun h => absurd hp h⟩

theorem Settles.congr {p q : Prop} (h : Settles r a x p) (hpq : p ↔ q) : Settles r a x q :=
  ⟨fun hq => h.yields (hpq.2 hq), fun hq => h.refuses fun hp => hq (hpq.1 hp)⟩

/-- The second step is asked only if the first one yields. -/
theorem Settles.bind {p q : Prop} (hr : Settles r a x p) (hf : p → Settles (f x) b y q) :
    Settles (r >>= f) (a ++ b) y (p ∧ q) := by
  constructor
  · rintro ⟨hp, hq⟩
    exact (hr.yields hp).bind ((hf hp).yields hq)
  · intro h
    by_cases hp : p
    · exact (hr.yields hp).bind_refuses ((hf hp).refuses fun hq => h ⟨hp, hq⟩)
    · exact ((hr.refuses hp).bind).append b

theorem Yields.bind_settles {q : Prop} (hr : Yields r a x) (hf : Settles (f x) b y q) :
    Settles (r >>= f) (a ++ b) y q :=
  ((hr.settles trivial).bind fun _ => hf).congr (iff_of_eq (true_and q))

theorem Settles.map {p : Prop} (hr : Settles r a x p) (g : α → β) :
    Settles (do return g (← r)) a (g x) p :=
  ⟨fun hp => (hr.yields hp).map g, fun hp => (hr.refuses hp).bind⟩

/-- A reader that first looks at all the bytes that remain settles bytes as it
does for each input that begins with them. -/
theorem settles_remaining {f : List UInt8 → Read β} {p : Prop}
    (h : ∀ rest, b.length ≤ rest.length → Settles (f rest) b y p) : Settles (remaining >>= f) b y p := by
  have step : ∀ offset suffix, (remaining >>= f) ⟨offset, b ++ suffix⟩ = f (b ++ suffix) ⟨offset, b ++ suffix⟩ :=
    fun _ _ => bind_of_ok rfl
  have enough : ∀ suffix : List UInt8, b.length ≤ (b ++ suffix).length := by
    intro suffix
    rw [List.length_append]
    exact Nat.le_add_right _ _
  constructor
  · intro hp offset suffix
    rw [step]
    exact (h _ (enough suffix)).yields hp offset suffix
  · intro hp offset suffix
    rw [step]
    exact (h _ (enough suffix)).refuses hp offset suffix

theorem yields_byte (b : UInt8) : Yields byte [b] b :=
  fun _ _ => rfl

theorem yields_slice (bytes : List UInt8) : Yields (slice bytes.length) bytes bytes := by
  intro offset suffix
  simp [slice, shorter_eq]

/-- A count passes that keeps the limit of items without width, if the bytes that remain
are enough for items of some width. -/
theorem checkBlock_of_fits {guard : Guard} {count decoded : Nat} {width : UInt64} {c : Cursor}
    (hw : count * width.toNat ≤ c.rest.length) (hl : width = 0 → count ≤ zeroWidthLimit - decoded) :
    checkBlock guard count width decoded c = .ok ((), c) := by
  unfold checkBlock
  split
  · rename_i hz
    rw [if_neg (Nat.not_lt.2 (hl hz))]
  · rw [if_neg]
    rintro ⟨-, hs⟩
    rw [shorter_eq, decide_eq_true_eq] at hs
    omega

/-- A guarded block of bytes: the count may be announced if it keeps the limit of
items without width, and the bytes that follow are enough for items of some width. -/
theorem settles_checkBlock {guard : Guard} {count decoded : Nat} {width : UInt64} {r : Read α} {p : Prop}
    (hw : count * width.toNat ≤ b.length) (hr : Settles r b x p) :
    Settles (do checkBlock guard count width decoded; r) b x
      ((width = 0 → count ≤ zeroWidthLimit - decoded) ∧ p) := by
  by_cases fits : width = 0 → count ≤ zeroWidthLimit - decoded
  · have pass : ∀ offset suffix, checkBlock guard count width decoded ⟨offset, b ++ suffix⟩ =
        .ok ((), ⟨offset, b ++ suffix⟩) := by
      intro offset suffix
      refine checkBlock_of_fits (Nat.le_trans hw ?_) fits
      rw [List.length_append]
      exact Nat.le_add_right _ _
    constructor
    · rintro ⟨-, hp⟩ offset suffix
      rw [bind_of_ok (pass offset suffix)]
      exact hr.yields hp offset suffix
    · intro hn offset suffix
      rw [bind_of_ok (pass offset suffix)]
      exact hr.refuses (fun hp => hn ⟨fits, hp⟩) offset suffix
  · refine ⟨fun h => absurd h.1 fits, fun _ offset suffix => ⟨.weightlessBlock count, bind_of_error ?_⟩⟩
    obtain ⟨hz, hc⟩ := Classical.not_imp.1 fits
    rw [checkBlock, if_pos hz, if_pos (Nat.not_le.1 hc)]

end Docket.Blob
