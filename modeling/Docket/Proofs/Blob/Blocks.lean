import Docket.Proofs.Blob.Front
import Docket.Proofs.Entries

/-!
# Parts in blocks

The parts of an array or a map stand one after the other, cut into blocks: a count
before each block, a size behind the count or none, and a count of zero at the end.
What is read of blocks is what is read of their parts, each put on top of the ones
before it, and bytes that are parts in blocks are read as such, up to the limit for
parts without width. Where they are cut shows only in the limit.
-/
namespace Docket.Blob

variable {α σ : Type}

/-- The bytes of parts that stand one after the other. -/
def joined (row : List (List UInt8 × α)) : List UInt8 :=
  (row.map Prod.fst).flatten

@[simp] theorem joined_nil : joined ([] : List (List UInt8 × α)) = [] := rfl

@[simp] theorem joined_cons (part : List UInt8 × α) (row : List (List UInt8 × α)) :
    joined (part :: row) = part.1 ++ joined row := rfl

@[simp] theorem joined_append (row others : List (List UInt8 × α)) :
    joined (row ++ others) = joined row ++ joined others := by
  simp [joined]

/-- What parts come to that are put on top of a state one after the other. -/
def stacked (step : σ → α → σ) (state : σ) (row : List (List UInt8 × α)) : σ :=
  row.foldl (fun state part => step state part.2) state

theorem length_mul_le_joined {row : List (List UInt8 × α)} {n : Nat} (h : ∀ part ∈ row, n ≤ part.1.length) :
    row.length * n ≤ (joined row).length := by
  induction row with
  | nil => exact Nat.le_of_eq (Nat.zero_mul n)
  | cons part row ih =>
      obtain ⟨hpart, hrow⟩ := List.forall_mem_cons.1 h
      have hr := ih hrow
      rw [List.length_cons, Nat.succ_mul, joined_cons, List.length_append]
      omega

theorem length_le_joined {row : List (List UInt8 × α)} {part : List UInt8 × α} (h : part ∈ row) :
    part.1.length ≤ (joined row).length :=
  (List.sublist_flatten_of_mem (List.mem_map_of_mem h)).length_le

/-! ### One block -/

/-- The bytes are those of a number of parts that were put on top of a state. -/
def Row (P : List UInt8 → α → Prop) (step : σ → α → σ) (count : Nat) (state : σ) (bytes : List UInt8)
    (final : σ) : Prop :=
  ∃ row, row.length = count ∧ (∀ part ∈ row, P part.1 part.2) ∧ joined row = bytes ∧ stacked step state row = final

theorem row_nil {P : List UInt8 → α → Prop} {step : σ → α → σ} (state : σ) : Row P step 0 state [] state :=
  ⟨[], rfl, fun _ h => absurd h List.not_mem_nil, rfl, rfl⟩

theorem Row.cons {P : List UInt8 → α → Prop} {step : σ → α → σ} {count : Nat} {state final : σ}
    {bytes others : List UInt8} {value : α} (h : P bytes value) (hr : Row P step count (step state value) others final) :
    Row P step (count + 1) state (bytes ++ others) final := by
  obtain ⟨row, rfl, hp, rfl, rfl⟩ := hr
  exact ⟨(bytes, value) :: row, rfl, List.forall_mem_cons.2 ⟨h, hp⟩, rfl, rfl⟩

variable {item : Datum → Read Datum}

theorem takes_readItems {P : List UInt8 → Datum → Prop} (hi : ∀ old, Takes (item old) P) (count : Nat)
    (slots : Slots) : Takes (readItems item count slots) (Row P Slots.fill count slots) := by
  induction count generalizing slots with
  | zero => exact takes_pure (row_nil slots)
  | succ count ih => exact (hi slots.next).bind fun hp => (ih _).imp fun hr => hr.cons hp

/-- Items are read one after the other; the first that is refused ends it. -/
theorem settles_readItems {p : Datum → Prop} {row : List (List UInt8 × Datum)}
    (h : ∀ part ∈ row, ∀ old, Settles (item old) part.1 part.2 (p part.2)) (slots : Slots) :
    Settles (readItems item row.length slots) (joined row) (stacked Slots.fill slots row)
      (∀ part ∈ row, p part.2) := by
  induction row generalizing slots with
  | nil => exact (yields_pure slots).settles fun part hp => absurd hp List.not_mem_nil
  | cons part row ih =>
      obtain ⟨hpart, hrow⟩ := List.forall_mem_cons.1 h
      exact ((hpart slots.next).bind fun _ => ih hrow (slots.fill part.2)).congr
        (List.forall_mem_cons (p := fun part : List UInt8 × Datum => p part.2)).symm

/-- A key, and a value behind it. -/
def Entry (P : List UInt8 → Datum → Prop) (bytes : List UInt8) (entry : String × Datum) : Prop :=
  ∃ name body, bytes = name ++ body ∧ Yields readText name entry.1 ∧ P body entry.2

theorem Entry.imp {P Q : List UInt8 → Datum → Prop} {bytes : List UInt8} {entry : String × Datum}
    (h : Entry P bytes entry) (hpq : ∀ {body}, P body entry.2 → Q body entry.2) : Entry Q bytes entry := by
  obtain ⟨name, body, hb, hk, hp⟩ := h
  exact ⟨name, body, hb, hk, hpq hp⟩

/-- Puts an entry among those read. -/
def Pairs.putEntry (pairs : Pairs) (entry : String × Datum) : Pairs :=
  pairs.put entry.1 entry.2

theorem takes_readPairs {P : List UInt8 → Datum → Prop} (hi : ∀ old, Takes (item old) P) (count : Nat)
    (pairs : Pairs) : Takes (readPairs item count pairs) (Row (Entry P) Pairs.putEntry count pairs) := by
  induction count generalizing pairs with
  | zero => exact takes_pure (row_nil pairs)
  | succ count ih =>
      refine takes_readText.bind fun {name key} hk => (hi _).bind fun {body value} hv => (ih _).imp fun hr => ?_
      have hentry : Entry P (name ++ body) (key, value) := ⟨name, body, rfl, hk.yields, hv⟩
      rw [← List.append_assoc]
      exact hr.cons hentry

/-- Entries are read one after the other, each a key and a value over the old one. -/
theorem settles_readPairs {p : Datum → Prop} {row : List (List UInt8 × String × Datum)}
    (h : ∀ part ∈ row, Entry (fun body value => ∀ old, Settles (item old) body value (p value)) part.1 part.2)
    (pairs : Pairs) :
    Settles (readPairs item row.length pairs) (joined row) (stacked Pairs.putEntry pairs row)
      (∀ part ∈ row, p part.2.2) := by
  induction row generalizing pairs with
  | nil => exact (yields_pure pairs).settles fun part hp => absurd hp List.not_mem_nil
  | cons part row ih =>
      obtain ⟨bytes, key, value⟩ := part
      obtain ⟨hpart, hrow⟩ := List.forall_mem_cons.1 h
      obtain ⟨name, body, rfl, hk, hv⟩ := hpart
      rw [joined_cons, List.append_assoc]
      exact (hk.bind_settles ((hv _).bind fun _ => ih hrow (pairs.put key value))).congr
        (List.forall_mem_cons (p := fun part : List UInt8 × String × Datum => p part.2.2)).symm

/-! ### All blocks -/

/-- Rows of parts, each behind its count, and a count of zero. -/
inductive Blocks (P : List UInt8 → α → Prop) : List UInt8 → List (List (List UInt8 × α)) → Prop where
  | last {bytes : List UInt8} : Yields Varint.readCount bytes 0 → Blocks P bytes []
  | block {head tail : List UInt8} {row : List (List UInt8 × α)} {rows : List (List (List UInt8 × α))} :
      Yields Varint.readCount head row.length → row ≠ [] → (∀ part ∈ row, P part.1 part.2) → Blocks P tail rows →
      Blocks P (head ++ (joined row ++ tail)) (row :: rows)

namespace Blocks

variable {P Q : List UInt8 → α → Prop} {bytes : List UInt8} {rows : List (List (List UInt8 × α))}

theorem part (h : Blocks P bytes rows) : ∀ part ∈ rows.flatten, P part.1 part.2 := by
  induction h with
  | last _ => exact fun _ hm => absurd hm List.not_mem_nil
  | block _ _ hp _ ih =>
      intro part hm
      rcases List.mem_append.1 hm with hm | hm
      · exact hp part hm
      · exact ih part hm

theorem imp (h : Blocks P bytes rows) (hpq : ∀ part ∈ rows.flatten, P part.1 part.2 → Q part.1 part.2) :
    Blocks Q bytes rows := by
  induction h with
  | last hl => exact .last hl
  | block hh hn hp _ ih =>
      refine .block hh hn (fun part hm => ?_) (ih fun part hm => ?_)
      · exact hpq part (List.mem_append_left _ hm) (hp part hm)
      · exact hpq part (List.mem_append_right _ hm)

/-- The end takes up a byte at least. -/
theorem length_joined_lt (h : Blocks P bytes rows) : (joined rows.flatten).length < bytes.length := by
  induction h with
  | last hl => exact (Varint.takes_readCount.of_yields hl).length_le
  | block _ _ _ _ ih =>
      rw [List.flatten_cons, joined_append, List.length_append, List.length_append, List.length_append]
      omega

/-- Bytes have room for all the parts together, in whichever blocks they come. -/
theorem length_mul_lt (h : Blocks P bytes rows) {n : Nat} (hn : ∀ part ∈ rows.flatten, n ≤ part.1.length) :
    rows.flatten.length * n < bytes.length :=
  Nat.lt_of_le_of_lt (length_mul_le_joined hn) h.length_joined_lt

theorem length_part_lt (h : Blocks P bytes rows) {part : List UInt8 × α} (hm : part ∈ rows.flatten) :
    part.1.length < bytes.length :=
  Nat.lt_of_le_of_lt (length_le_joined hm) h.length_joined_lt

end Blocks

/-- Every block keeps the limit for parts without width, with the parts before it. -/
def Allowed (width : UInt64) (decoded : σ → Nat) (step : σ → α → σ) : σ → List (List (List UInt8 × α)) → Prop
  | _, [] => True
  | state, row :: rows =>
      (width = 0 → row.length ≤ zeroWidthLimit - decoded state) ∧
        Allowed width decoded step (stacked step state row) rows

theorem allowed_of_ne_zero {width : UInt64} (hw : width ≠ 0) (decoded : σ → Nat) (step : σ → α → σ) (state : σ)
    (rows : List (List (List UInt8 × α))) : Allowed width decoded step state rows := by
  induction rows generalizing state with
  | nil => exact trivial
  | cons row rows ih => exact ⟨fun hz => absurd hz hw, ih _⟩

/-- Where every part is counted, the blocks keep the limit if all parts together do. -/
theorem allowed_iff {width : UInt64} {decoded : σ → Nat} {step : σ → α → σ}
    (hd : ∀ state value, decoded (step state value) = decoded state + 1) (state : σ)
    (rows : List (List (List UInt8 × α))) :
    Allowed width decoded step state rows ↔ (width = 0 → rows.flatten.length ≤ zeroWidthLimit - decoded state) := by
  have hs : ∀ (row : List (List UInt8 × α)) (state : σ), decoded (stacked step state row) = decoded state + row.length := by
    intro row
    induction row with
    | nil => exact fun _ => rfl
    | cons part row ih =>
        intro state
        rw [stacked, List.foldl_cons, ← stacked, ih, hd, List.length_cons]
        omega
  induction rows generalizing state with
  | nil => simp [Allowed]
  | cons row rows ih =>
      have hrest := ih (stacked step state row)
      rw [hs] at hrest
      rw [Allowed, List.flatten_cons, List.length_append]
      refine (and_congr_right fun _ => hrest).trans ?_
      rw [← forall_and]
      exact forall_congr' fun _ => by omega

variable {guard : Guard} {width : UInt64} {decoded : σ → Nat} {parts : Nat → σ → Read σ} {step : σ → α → σ}
  {P : List UInt8 → α → Prop}

/-- What is read of blocks is what is read of their parts. -/
theorem takes_readBlocks (hp : ∀ count state, Takes (parts count state) (Row P step count state))
    (fuel : List UInt8) (state : σ) :
    Takes (readBlocks guard width decoded parts fuel state) fun bytes final =>
      ∃ rows, Blocks P bytes rows ∧ Allowed width decoded step state rows ∧ stacked step state rows.flatten = final := by
  induction fuel generalizing state with
  | nil =>
      intro c c' final h
      cases h
  | cons _ fuel ih =>
      refine Varint.takes_readCount.bind fun {head count} hh => ?_
      split
      · rename_i hz
        subst hz
        exact takes_pure ⟨[], by rw [List.append_nil]; exact .last hh.yields, trivial, rfl⟩
      · rename_i hn
        refine (takes_checkBlock guard count width (decoded state)).bind fun hc => ?_
        obtain ⟨rfl, hallowed⟩ := hc
        refine (hp count state).bind fun hrow => ?_
        obtain ⟨row, rfl, hparts, rfl, rfl⟩ := hrow
        refine (ih (stacked step state row)).imp fun {tail final} h => ?_
        obtain ⟨rows, hrows, hrest, hfinal⟩ := h
        refine ⟨row :: rows, .block hh.yields (List.length_pos_iff.1 (Nat.pos_of_ne_zero hn)) hparts hrows,
          ⟨hallowed, hrest⟩, ?_⟩
        rw [List.flatten_cons, stacked, List.foldl_append]
        exact hfinal

/-- A count of zero ends the blocks. -/
theorem yields_lastBlock {last fuel : List UInt8} (hl : Yields Varint.readCount last 0) (hf : 0 < fuel.length)
    (state : σ) : Yields (readBlocks guard width decoded parts fuel state) last state := by
  cases fuel with
  | nil => cases hf
  | cons b fuel =>
      refine hl.bind_nil ?_
      rw [if_pos rfl]
      exact yields_pure state

/-- One more block: its count must pass the guard, then its parts are read, and
what is left of the fuel must do for the blocks behind it. -/
theorem settles_readBlocks_cons {count : Nat} {head body tail : List UInt8} {fuel : List UInt8}
    {state middle final : σ} {p q : Prop} (hh : Yields Varint.readCount head count) (hc : count ≠ 0)
    (hw : count * width.toNat ≤ (body ++ tail).length) (hb : Settles (parts count state) body middle p)
    (ht : p → Settles (readBlocks guard width decoded parts fuel middle) tail final q) (b : UInt8) :
    Settles (readBlocks guard width decoded parts (b :: fuel) state) (head ++ (body ++ tail)) final
      ((width = 0 → count ≤ zeroWidthLimit - decoded state) ∧ p ∧ q) := by
  refine hh.bind_settles ?_
  rw [if_neg hc]
  exact settles_checkBlock hw (hb.bind ht)

/-- Blocks are read as their parts are, if none of them breaks the limit. The guard
that holds counts against the bytes that remain never strikes, since every part takes
up the width it is charged with. -/
theorem settles_readBlocks {p : α → Prop}
    (hp : ∀ (row : List (List UInt8 × α)) (state : σ), (∀ part ∈ row, P part.1 part.2) →
      Settles (parts row.length state) (joined row) (stacked step state row) (∀ part ∈ row, p part.2))
    (hw : ∀ {bytes value}, P bytes value → width.toNat ≤ bytes.length) {bytes : List UInt8}
    {rows : List (List (List UInt8 × α))} (h : Blocks P bytes rows) {fuel : List UInt8}
    (hf : bytes.length ≤ fuel.length) (state : σ) :
    Settles (readBlocks guard width decoded parts fuel state) bytes (stacked step state rows.flatten)
      (Allowed width decoded step state rows ∧ ∀ part ∈ rows.flatten, p part.2) := by
  induction h generalizing fuel state with
  | last hl =>
      have hlast : 0 < fuel.length := Nat.lt_of_lt_of_le (Varint.takes_readCount.of_yields hl).length_le hf
      exact (yields_lastBlock hl hlast state).settles ⟨trivial, fun _ hm => absurd hm List.not_mem_nil⟩
  | @block head tail row rows hh hn hparts _ ih =>
      have hhead := (Varint.takes_readCount.of_yields hh).length_le
      have hfit : row.length * width.toNat ≤ (joined row ++ tail).length := by
        rw [List.length_append]
        exact Nat.le_add_right_of_le (length_mul_le_joined fun part hm => hw (hparts part hm))
      -- the count takes up a byte, so the fuel that is left does for the blocks behind this one
      obtain ⟨b, fuel, rfl, hfuel⟩ : ∃ b rest, fuel = b :: rest ∧ tail.length ≤ rest.length := by
        cases fuel with
        | nil =>
            simp only [List.length_append, List.length_nil] at hf
            omega
        | cons b rest =>
            simp only [List.length_append, List.length_cons] at hf
            exact ⟨b, rest, rfl, by omega⟩
      have hrow := hp row state hparts
      rw [List.flatten_cons, stacked, List.foldl_append]
      refine (settles_readBlocks_cons hh (Nat.ne_of_gt (List.length_pos_iff.2 hn)) hfit hrow
        (fun _ => ih hfuel (stacked step state row)) b).congr ?_
      rw [Allowed, List.forall_mem_append]
      constructor
      · rintro ⟨hc, hr, hrest, htail⟩
        exact ⟨⟨hc, hrest⟩, hr, htail⟩
      · rintro ⟨⟨hc, hrest⟩, hr, htail⟩
        exact ⟨hc, hr, hrest, htail⟩

/-! ### Arrays and maps -/

theorem Slots.filled_reusing (old : Datum) : (Slots.reusing old).filled = 0 := by
  cases old <;> rfl

theorem Slots.filled_fill (slots : Slots) (value : Datum) : (slots.fill value).filled = slots.filled + 1 := by
  rw [← Slots.length_values, Slots.values_fill, List.length_append, Slots.length_values]
  rfl

theorem values_stacked (slots : Slots) (row : List (List UInt8 × Datum)) :
    (stacked Slots.fill slots row).values = slots.values ++ row.map Prod.snd := by
  induction row generalizing slots with
  | nil => exact (List.append_nil _).symm
  | cons part row ih =>
      rw [stacked, List.foldl_cons, ← stacked, ih, Slots.values_fill, List.append_assoc]
      rfl

/-- Of a repeated key the last value stands. -/
theorem read_stacked (pairs : Pairs) (row : List (List UInt8 × String × Datum)) :
    (stacked Pairs.putEntry pairs row).read =
      (row.map Prod.snd).foldl (fun sorted e => Entries.insert e.1 e.2 sorted) pairs.read := by
  induction row generalizing pairs with
  | nil => rfl
  | cons part row ih =>
      rw [stacked, List.foldl_cons, ← stacked, ih]
      rfl

theorem stacked_slots (old : Datum) (row : List (List UInt8 × Datum)) :
    (stacked Slots.fill (.reusing old) row).values = row.map Prod.snd := by
  rw [values_stacked, Slots.values_reusing, List.nil_append]

theorem stacked_pairs (old : Datum) (row : List (List UInt8 × String × Datum)) :
    (stacked Pairs.putEntry (.reusing old) row).read = Entries.ofList (row.map Prod.snd) := by
  rw [read_stacked, Pairs.read_reusing, Entries.ofList]

variable {items values : Schema}

theorem takes_array {P : List UInt8 → Datum → Prop} (hi : ∀ old, Takes (readDatum guard items old) P) (old : Datum) :
    Takes (readDatum guard (.array items) old) fun bytes value => ∃ rows, Blocks P bytes rows ∧
      (items.width = 0 → rows.flatten.length ≤ zeroWidthLimit) ∧ value = .array (rows.flatten.map Prod.snd) := by
  refine takes_remaining.bind fun hb => ?_
  subst hb
  refine (takes_readBlocks (takes_readItems hi) _ (.reusing old)).bind fun h => ?_
  obtain ⟨rows, hrows, hallowed, rfl⟩ := h
  rw [allowed_iff Slots.filled_fill, Slots.filled_reusing] at hallowed
  refine takes_pure ⟨rows, ?_, hallowed, by rw [stacked_slots]⟩
  rwa [List.append_nil, List.nil_append]

theorem takes_map_blocks {P : List UInt8 → Datum → Prop} (hv : ∀ old, Takes (readDatum guard values old) P)
    (old : Datum) : Takes (readDatum guard (.map values) old) fun bytes value => ∃ rows, Blocks (Entry P) bytes rows ∧
      Allowed values.entryWidth Pairs.count Pairs.putEntry (.reusing old) rows ∧
      value = .map (Entries.ofList (rows.flatten.map Prod.snd)) := by
  refine takes_remaining.bind fun hb => ?_
  subst hb
  refine (takes_readBlocks (takes_readPairs hv) _ (.reusing old)).bind fun h => ?_
  obtain ⟨rows, hrows, hallowed, rfl⟩ := h
  refine takes_pure ⟨rows, ?_, hallowed, by rw [stacked_pairs]⟩
  rwa [List.append_nil, List.nil_append]

/-- An array is read of its items in any blocks, as far as the items are. -/
theorem settles_blocks_array {P : List UInt8 → Datum → Prop} {p : Datum → Prop}
    (hp : ∀ {part value}, P part value → ∀ old, Settles (readDatum guard items old) part value (p value))
    (hw : ∀ {part value}, P part value → items.width.toNat ≤ part.length) {bytes : List UInt8}
    {rows : List (List (List UInt8 × Datum))} (h : Blocks P bytes rows) (old : Datum) :
    Settles (readDatum guard (.array items) old) bytes (.array (rows.flatten.map Prod.snd))
      ((items.width = 0 → rows.flatten.length ≤ zeroWidthLimit) ∧ ∀ part ∈ rows.flatten, p part.2) := by
  -- the blob itself bounds the number of blocks, as fuel for reading them
  refine settles_remaining fun rest hrest => ?_
  have hb : Settles (readBlocks guard items.width Slots.filled (readItems (readDatum guard items)) rest (.reusing old))
      bytes (stacked Slots.fill (.reusing old) rows.flatten) _ :=
    settles_readBlocks (fun row slots hrow => settles_readItems (fun part hm => hp (hrow part hm)) slots) hw h hrest _
  have ha := hb.map fun slots => Datum.array slots.values
  rw [stacked_slots] at ha
  refine ha.congr ?_
  rw [allowed_iff Slots.filled_fill, Slots.filled_reusing, Nat.sub_zero]

theorem entryWidth_le_length {P : List UInt8 → Datum → Prop}
    (hw : ∀ {body value}, P body value → values.width.toNat ≤ body.length) {bytes : List UInt8}
    {entry : String × Datum} (h : Entry P bytes entry) : values.entryWidth.toNat ≤ bytes.length := by
  obtain ⟨name, body, rfl, hk, hv⟩ := h
  have hname := (takes_readText.of_yields hk).length_le
  have hbody := hw hv
  have hwrap : values.entryWidth.toNat ≤ 1 + values.width.toNat := by
    rw [Schema.entryWidth, UInt64.toNat_add]
    exact Nat.mod_le _ _
  rw [List.length_append]
  omega

/-- A map is read of its entries in any blocks, as far as their values are. -/
theorem settles_blocks_map {P : List UInt8 → Datum → Prop} {p : Datum → Prop}
    (hp : ∀ {body value}, P body value → ∀ old, Settles (readDatum guard values old) body value (p value))
    (hw : ∀ {body value}, P body value → values.width.toNat ≤ body.length) {bytes : List UInt8}
    {rows : List (List (List UInt8 × String × Datum))} (h : Blocks (Entry P) bytes rows) (old : Datum) :
    Settles (readDatum guard (.map values) old) bytes (.map (Entries.ofList (rows.flatten.map Prod.snd)))
      (Allowed values.entryWidth Pairs.count Pairs.putEntry (.reusing old) rows ∧
        ∀ part ∈ rows.flatten, p part.2.2) := by
  refine settles_remaining fun rest hrest => ?_
  have hb : Settles (readBlocks guard values.entryWidth Pairs.count (readPairs (readDatum guard values)) rest
      (.reusing old)) bytes (stacked Pairs.putEntry (.reusing old) rows.flatten) _ :=
    settles_readBlocks (p := fun entry => p entry.2)
      (fun row pairs hrow => settles_readPairs (fun part hm => (hrow part hm).imp hp) pairs)
      (entryWidth_le_length hw) h hrest _
  have ha := hb.map fun pairs => Datum.map pairs.read
  rw [stacked_pairs] at ha
  exact ha

/-! ### A single block -/

/-- The rows of a single block; without a part there is none. -/
def oneRow (row : List (List UInt8 × α)) : List (List (List UInt8 × α)) :=
  if row.isEmpty then [] else [row]

@[simp] theorem flatten_oneRow (row : List (List UInt8 × α)) : (oneRow row).flatten = row := by
  cases row <;> simp [oneRow]

end Docket.Blob
