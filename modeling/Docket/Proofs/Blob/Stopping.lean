import Docket.Blob.Checked
import Docket.Proofs.Blob.Shortest

/-!
# Where reading with checked sums stops

Reading with checked sums reads as ever, or stops. How many bytes it takes to stop is
told along the schema. An array whose items are each wider than a word can count, or a
map whose entries are, takes none: the sum is asked for before anything is read. What
stands further inside is reached behind the place of a branch, behind the fields before
it, or in a block, which has to pass. Over fewer bytes reading never stops, and over
some bytes of that number it does, whatever follows them.
-/
namespace Docket

namespace Schema

/-! ### Checked widths -/

theorem addChecked_bind {β : Type} {a b : UInt64} {f : UInt64 → Option β} :
    (addChecked a b).bind f = if a.toNat + b.toNat < 2 ^ 64 then f (a + b) else none := by
  unfold addChecked
  split <;> rfl

mutual

/-- A width is given where a word holds the span, and then it is the span. -/
theorem width?_eq : (s : Schema) → s.width? = if s.span < 2 ^ 64 then some s.width else none
  | .null | .float | .double => rfl
  | .boolean | .int | .long | .string | .bytes => rfl
  | .enum _ _ | .array _ | .map _ | .union _ => rfl
  | .fixed _ size => (if_pos size.toNat_lt).symm
  | .record _ fields => by
      have h := fieldsWidth?_eq 0 fields
      rwa [UInt64.toNat_zero, Nat.zero_add, UInt64.zero_add] at h

/-- The sums are checked one by one, which comes to checking the last one. -/
theorem fieldsWidth?_eq (sum : UInt64) : (fields : List Field) →
    fieldsWidth? sum fields = if sum.toNat + fieldsSpan fields < 2 ^ 64 then some (sum + fieldsWidth fields) else none
  | [] => by
      rw [fieldsWidth?, fieldsSpan, fieldsWidth, UInt64.add_zero, if_pos]
      exact sum.toNat_lt
  | ⟨_, schema, _⟩ :: rest => by
      rw [fieldsWidth?, fieldsSpan, fieldsWidth, width?_eq schema]
      by_cases hs : schema.span < 2 ^ 64
      · have hwidth := toNat_width_of_lt hs
        rw [if_pos hs, Option.bind_some, addChecked_bind, hwidth]
        by_cases hsum : sum.toNat + schema.span < 2 ^ 64
        · have hadd : (sum + schema.width).toNat = sum.toNat + schema.span := by
            rw [UInt64.toNat_add, hwidth, Nat.mod_eq_of_lt hsum]
          rw [if_pos hsum, fieldsWidth?_eq (sum + schema.width) rest, hadd, Nat.add_assoc, UInt64.add_assoc]
        · rw [if_neg hsum, if_neg (by omega)]
      · rw [if_neg hs, Option.bind_none, if_neg (by omega)]

end

theorem entryWidth?_eq (values : Schema) :
    values.entryWidth? = if 1 + values.span < 2 ^ 64 then some values.entryWidth else none := by
  rw [entryWidth?, width?_eq]
  by_cases hs : values.span < 2 ^ 64
  · rw [if_pos hs, Option.bind_some, addChecked, toNat_width_of_lt hs]
    rfl
  · rw [if_neg hs, Option.bind_none, if_neg (by omega)]

/-! ### How many bytes it takes -/

mutual

/-- For each array or map in the schema that reading stops at, the length of the shortest
bytes that lead there. What stands inside of it is not reached. -/
def stopLengths : Schema → List Nat
  | array items => if items.span < 2 ^ 64 then items.stopLengths.map fun n => 1 + max items.span n else [0]
  | map values =>
      if 1 + values.span < 2 ^ 64 then values.stopLengths.map fun n => 1 + max (1 + values.span) (1 + n) else [0]
  | record _ fields => fieldsStopLengths fields
  | union branches =>
      (branchesStopLengths branches).zipIdx.flatMap fun (lengths, place) => lengths.map (behind place)
  | _ => []

/-- A field is reached behind those before it. -/
def fieldsStopLengths : List Field → List Nat
  | [] => []
  | ⟨_, schema, _⟩ :: rest => schema.stopLengths ++ (fieldsStopLengths rest).map (schema.shortest + ·)

def branchesStopLengths : List Schema → List (List Nat)
  | [] => []
  | branch :: rest => branch.stopLengths :: branchesStopLengths rest

end

theorem branchesStopLengths_eq (branches : List Schema) : branchesStopLengths branches = branches.map stopLengths := by
  induction branches with
  | nil => rfl
  | cons branch branches ih => rw [branchesStopLengths, ih, List.map_cons]

theorem mem_stopLengths_union {branches : List Schema} {n : Nat} : n ∈ (union branches).stopLengths ↔
    ∃ index branch, branches[index]? = some branch ∧ ∃ length ∈ branch.stopLengths, behind index length = n := by
  rw [stopLengths, branchesStopLengths_eq, List.mem_flatMap]
  constructor
  · rintro ⟨⟨lengths, index⟩, hm, hn⟩
    obtain ⟨branch, hb, rfl⟩ := mem_zipIdx_map_iff.1 hm
    exact ⟨index, branch, hb, List.mem_map.1 hn⟩
  · rintro ⟨index, branch, hb, hn⟩
    exact ⟨(branch.stopLengths, index), mem_zipIdx_map_iff.2 ⟨branch, hb, rfl⟩, List.mem_map.2 hn⟩

end Schema

namespace Blob

variable {α β σ : Type} {r : Read α} {t : Checked α} {f : α → Read β} {g : α → Checked β}
  {P : List UInt8 → α → Prop} {bytes head body : List UInt8} {x : α} {lengths others : List Nat}

theorem checked_bind_of_ok {c c' : Cursor} (h : t c = some (.ok (x, c'))) : (t >>= g) c = g x c' := by
  simp [bind, StateT.bind, ExceptT.bind, ExceptT.mk, ExceptT.bindCont, h]

theorem checked_bind_of_error {c : Cursor} {fault : Fault} (h : t c = some (.error fault)) :
    (t >>= g) c = some (.error fault) := by
  simp [bind, StateT.bind, ExceptT.bind, ExceptT.mk, ExceptT.bindCont, h]

theorem checked_bind_of_none {c : Cursor} (h : t c = none) : (t >>= g) c = none := by
  simp [bind, StateT.bind, ExceptT.bind, ExceptT.mk, h]

/-! ### Over fewer bytes nothing stops -/

/-- Some length is no more than the number. -/
def Reached (lengths : List Nat) (n : Nat) : Prop :=
  ∃ length ∈ lengths, length ≤ n

/-- The checked reader does what the other one does, or stops, and then at least as many
bytes are left as one of the lengths. -/
def Follows (lengths : List Nat) (t : Checked α) (r : Read α) : Prop :=
  ∀ c, t c = some (r c) ∨ Reached lengths c.rest.length ∧ t c = none

theorem Follows.mono (h : Follows lengths t r) (hl : ∀ n, Reached lengths n → Reached others n) : Follows others t r :=
  fun c => (h c).imp_right (And.imp_left (hl _))

theorem follows_checked (lengths : List Nat) (r : Read α) : Follows lengths r.checked r :=
  fun _ => .inl rfl

theorem follows_pure (x : α) : Follows lengths (pure x) (pure x) :=
  fun _ => .inl rfl

/-- What the first step takes is not left to the second one. -/
theorem Follows.bind (ht : Follows lengths t r) (hr : Takes r P)
    (hg : ∀ {a x}, P a x → ∃ others, Follows others (g x) (f x) ∧
      ∀ length ∈ others, Reached lengths (a.length + length)) : Follows lengths (t >>= g) (r >>= f) := by
  intro c
  rcases ht c with h | ⟨hn, h⟩
  · cases hc : r c with
    | error fault => exact .inl (by rw [checked_bind_of_error (h.trans (congrArg some hc)), bind_of_error hc])
    | ok result =>
        obtain ⟨x, c'⟩ := result
        obtain ⟨a, hrest, hp⟩ := hr hc
        obtain ⟨others, hnext, hothers⟩ := hg hp
        rw [checked_bind_of_ok (h.trans (congrArg some hc)), bind_of_ok hc]
        refine (hnext c').imp_right (And.imp_left fun hleft => ?_)
        obtain ⟨length, hm, hle⟩ := hleft
        obtain ⟨whole, hw, hwle⟩ := hothers length hm
        refine ⟨whole, hw, Nat.le_trans hwle ?_⟩
        rw [hrest, List.length_append]
        exact Nat.add_le_add_left hle _
  · exact .inr ⟨hn, checked_bind_of_none h⟩

theorem reached_add {n : Nat} (hn : n ∈ lengths) (m : Nat) : Reached lengths (m + n) :=
  ⟨n, hn, Nat.le_add_left _ _⟩

theorem reached_of_map {h : Nat → Nat} (hh : ∀ n, n ≤ h n) {n : Nat} (hn : Reached (lengths.map h) n) :
    Reached lengths n := by
  obtain ⟨_, hm, hle⟩ := hn
  obtain ⟨length, hl, rfl⟩ := List.mem_map.1 hm
  exact ⟨length, hl, Nat.le_trans (hh length) hle⟩

/-- A second step that stops over no fewer bytes than both together. -/
theorem Follows.bind_same (ht : Follows lengths t r) (hr : Takes r P) (hg : ∀ x, Follows lengths (g x) (f x)) :
    Follows lengths (t >>= g) (r >>= f) :=
  ht.bind hr fun _ => ⟨lengths, hg _, fun _ hn => reached_add hn _⟩

theorem demand_some (x : α) (c : Cursor) : Checked.demand (some x) c = some (.ok (x, c)) :=
  rfl

theorem demand_none (c : Cursor) : (Checked.demand none : Checked α) c = none :=
  rfl

/-- A sum is demanded first. -/
theorem follows_demand {p : Prop} [Decidable p] {s : Read β} (hg : p → Follows lengths (g x) s) :
    Follows (if p then lengths else [0]) (Checked.demand (if p then some x else none) >>= g) s := by
  intro c
  by_cases hp : p
  · rw [if_pos hp, if_pos hp, checked_bind_of_ok (demand_some x c)]
    exact hg hp c
  · rw [if_neg hp, if_neg hp]
    exact .inr ⟨⟨0, List.mem_singleton_self 0, Nat.zero_le _⟩, checked_bind_of_none (demand_none c)⟩

section

variable {item : Datum → Read Datum} {checkedItem : Datum → Checked Datum} {Q : List UInt8 → Datum → Prop}

theorem follows_readItems (hi : ∀ old, Follows lengths (checkedItem old) (item old)) (ht : ∀ old, Takes (item old) Q)
    (count : Nat) (slots : Slots) :
    Follows lengths (Checked.readItems checkedItem count slots) (readItems item count slots) := by
  induction count generalizing slots with
  | zero => exact follows_pure slots
  | succ count ih => exact (hi _).bind_same (ht _) fun value => ih _

/-- The key takes a byte at least. -/
theorem follows_readPairs (hi : ∀ old, Follows lengths (checkedItem old) (item old)) (ht : ∀ old, Takes (item old) Q)
    (count : Nat) (pairs : Pairs) :
    Follows (lengths.map (1 + ·)) (Checked.readPairs checkedItem count pairs) (readPairs item count pairs) := by
  induction count generalizing pairs with
  | zero => exact follows_pure pairs
  | succ count ih =>
      refine (follows_checked _ _).bind takes_readText fun {name key} hk => ⟨lengths, ?_, fun length hm => ?_⟩
      · exact (hi _).bind_same (ht _) fun value =>
          (ih _).mono fun n hn => reached_of_map (fun length => Nat.le_add_left length 1) hn
      · exact ⟨1 + length, List.mem_map_of_mem hm, Nat.add_le_add_right hk.length_le _⟩

end

theorem fits_of_checkBlock {count decoded : Nat} {width : UInt64} {c c' : Cursor}
    (h : checkBlock .everyBlock count width decoded c = .ok ((), c')) :
    c' = c ∧ count * width.toNat ≤ c.rest.length := by
  unfold checkBlock at h
  split at h
  · rename_i hw
    split at h
    · cases h
    · cases h
      rw [hw, UInt64.toNat_zero, Nat.mul_zero]
      exact ⟨rfl, Nat.zero_le _⟩
  · split at h
    · cases h
    · rename_i hs
      cases h
      rw [shorter_eq, decide_eq_true_eq] at hs
      exact ⟨rfl, Nat.not_lt.1 fun hlt => hs ⟨rfl, hlt⟩⟩

/-- A block that passes leaves room for one part at least. -/
theorem follows_checkBlock {count decoded : Nat} {width : UInt64} {t : Checked β} {r : Read β} (hc : count ≠ 0)
    (ht : Follows lengths t r) :
    Follows (lengths.map (max width.toNat)) (do (checkBlock .everyBlock count width decoded).checked; t)
      (do checkBlock .everyBlock count width decoded; r) := by
  intro c
  cases hb : checkBlock .everyBlock count width decoded c with
  | error fault => exact .inl (by rw [checked_bind_of_error (congrArg some hb), bind_of_error hb])
  | ok result =>
      obtain ⟨⟨⟩, c'⟩ := result
      obtain ⟨rfl, hfits⟩ := fits_of_checkBlock hb
      have hroom : width.toNat ≤ c'.rest.length :=
        Nat.le_trans (Nat.le_mul_of_pos_left _ (Nat.pos_of_ne_zero hc)) hfits
      rw [checked_bind_of_ok (congrArg some hb), bind_of_ok hb]
      refine (ht c').imp_right (And.imp_left fun hn => ?_)
      obtain ⟨length, hm, hle⟩ := hn
      exact ⟨max width.toNat length, List.mem_map_of_mem hm, Nat.max_le.2 ⟨hroom, hle⟩⟩

theorem follows_readBlocks {width : UInt64} {decoded : σ → Nat} {parts : Nat → σ → Read σ}
    {checkedParts : Nat → σ → Checked σ} {Q : Nat → σ → List UInt8 → σ → Prop}
    (hp : ∀ count state, Follows lengths (checkedParts count state) (parts count state))
    (ht : ∀ count state, Takes (parts count state) (Q count state)) (fuel : List UInt8) (state : σ) :
    Follows (lengths.map fun n => 1 + max width.toNat n) (Checked.readBlocks width decoded checkedParts fuel state)
      (readBlocks .everyBlock width decoded parts fuel state) := by
  have hless : ∀ n, n ≤ 1 + max width.toNat n := fun n => by omega
  induction fuel generalizing state with
  | nil => exact follows_checked _ _
  | cons _ fuel ih =>
      refine (follows_checked _ _).bind Varint.takes_readCount fun {head count} hh =>
        ⟨lengths.map (max width.toNat), ?_, fun _ hm => ?_⟩
      · split
        · exact follows_pure state
        · rename_i hcount
          exact follows_checkBlock hcount ((hp count state).bind_same (ht count state) fun state =>
            (ih state).mono fun n hn => reached_of_map hless hn)
      · obtain ⟨length, hl, rfl⟩ := List.mem_map.1 hm
        exact ⟨_, List.mem_map_of_mem hl, Nat.add_le_add_right hh.length_le _⟩

/-- Whatever is overwritten, checked reading by the schema follows reading by it. -/
def Tracks (s : Schema) : Prop :=
  ∀ old, Follows s.stopLengths (Checked.readDatum s old) (readDatum .everyBlock s old)

theorem follows_readFields {fields : List Field} (hf : ∀ field ∈ fields, Tracks field.schema) (old : List Datum) :
    Follows (Schema.fieldsStopLengths fields) (Checked.readFields fields old) (readFields .everyBlock fields old) := by
  induction fields generalizing old with
  | nil => exact follows_pure []
  | cons field fields ih =>
      obtain ⟨name, schema, default⟩ := field
      obtain ⟨hhead, hrest⟩ := List.forall_mem_cons.1 hf
      have hfirst : ∀ n, Reached schema.stopLengths n →
          Reached (Schema.fieldsStopLengths (⟨name, schema, default⟩ :: fields)) n := by
        rintro n ⟨length, hm, hle⟩
        exact ⟨length, List.mem_append_left _ hm, hle⟩
      refine ((hhead _).mono hfirst).bind (takes_decoded schema _) fun hd =>
        ⟨Schema.fieldsStopLengths fields, ?_, fun length hm => ?_⟩
      · exact (ih hrest _).bind_same (takes_readFields (fun field _ => takes_decoded field.schema) _)
          fun others => follows_pure _
      · exact ⟨schema.shortest + length, List.mem_append_right _ (List.mem_map_of_mem hm),
          Nat.add_le_add_right (shortest_le hd) _⟩

theorem follows_readBranch {branches : List Schema} {position : Nat} (hb : ∀ branch ∈ branches, Tracks branch)
    (hn : ∀ branch, branches[position]? = some branch → ∀ n ∈ branch.stopLengths, n ∈ lengths)
    (count index : Nat) (old : Datum) : Follows lengths (Checked.readBranch count index branches position old)
      (readBranch .everyBlock count index branches position old) := by
  induction branches generalizing position with
  | nil => exact follows_checked _ _
  | cons branch branches ih =>
      obtain ⟨hhead, hrest⟩ := List.forall_mem_cons.1 hb
      cases position with
      | zero =>
          refine (hhead _).mono fun n hr => ?_
          obtain ⟨length, hm, hle⟩ := hr
          exact ⟨length, hn branch rfl length hm, hle⟩
      | succ position => exact ih hrest hn

theorem tracks_union {branches : List Schema} (hb : ∀ branch ∈ branches, Tracks branch) : Tracks (.union branches) := by
  intro old
  refine (follows_checked _ _).bind Varint.takes_readNat fun {head index} hh => ?_
  refine ⟨(branches[index]?).elim [] Schema.stopLengths, follows_readBranch hb (fun branch h n hn => ?_) _ _ _, ?_⟩
  · rw [h]
    exact hn
  · intro length hm
    cases hbranch : branches[index]? with
    | none =>
        rw [hbranch] at hm
        cases hm
    | some branch =>
        rw [hbranch] at hm
        exact ⟨_, Schema.mem_stopLengths_union.2 ⟨index, branch, hbranch, length, hm, rfl⟩,
          Nat.add_le_add_right (Varint.length_encodeNat_le hh.yields) _⟩

theorem tracks (s : Schema) : Tracks s := by
  induction s using Schema.children_induction with
  | step s ih =>
    cases s with
    | array items =>
        intro old
        have hitem := ih items (List.mem_singleton_self _)
        have htakes := takes_readItems (takes_decoded items)
        rw [Checked.readDatum, Schema.width?_eq, readDatum, Schema.stopLengths]
        refine follows_demand fun hfits => ?_
        rw [← Schema.toNat_width_of_lt hfits]
        refine (follows_checked _ remaining).bind_same takes_remaining fun rest => ?_
        exact (follows_readBlocks (follows_readItems hitem (takes_decoded items)) htakes _ _).bind_same
          (takes_readBlocks htakes _ _) fun slots => follows_pure _
    | map values =>
        intro old
        have hvalue := ih values (List.mem_singleton_self _)
        have htakes := takes_readPairs (takes_decoded values)
        rw [Checked.readDatum, Schema.entryWidth?_eq, readDatum, Schema.stopLengths]
        refine follows_demand fun hfits => ?_
        rw [← Schema.toNat_entryWidth_of_lt hfits]
        refine (follows_checked _ remaining).bind_same takes_remaining fun rest => ?_
        have hentries : (values.stopLengths.map fun n => 1 + max values.entryWidth.toNat (1 + n)) =
            (values.stopLengths.map (1 + ·)).map fun n => 1 + max values.entryWidth.toNat n := by
          rw [List.map_map]
          rfl
        rw [hentries]
        exact (follows_readBlocks (follows_readPairs hvalue (takes_decoded values)) htakes _ _).bind_same
          (takes_readBlocks htakes _ _) fun pairs => follows_pure _
    | record name fields =>
        intro old
        have hfields := follows_readFields (fun field hf => ih field.schema (List.mem_map_of_mem hf))
          (oldFields fields.length old)
        exact hfields.bind_same (takes_readFields (fun field _ => takes_decoded field.schema) _)
          fun values => follows_pure _
    | union branches => exact tracks_union ih
    | _ => exact fun old => follows_checked _ _

/-! ### Over some bytes of that number it stops -/

/-- The checked reader stops on every input that begins with the bytes. -/
def Stops (t : Checked α) (bytes : List UInt8) : Prop :=
  ∀ offset suffix, t ⟨offset, bytes ++ suffix⟩ = none

theorem Stops.bind (h : Stops t bytes) : Stops (t >>= g) bytes :=
  fun offset suffix => checked_bind_of_none (h offset suffix)

/-- What is stopped is stopped with more bytes behind it. -/
theorem Stops.append (h : Stops t bytes) (others : List UInt8) : Stops t (bytes ++ others) := by
  intro offset suffix
  rw [List.append_assoc]
  exact h offset (others ++ suffix)

/-- A first step that reads its bytes leads to the second one. -/
theorem Yields.bind_stops (hr : Yields r head x) (ht : Follows lengths t r) (hg : Stops (g x) body) :
    Stops (t >>= g) (head ++ body) := by
  intro offset suffix
  rw [List.append_assoc]
  rcases ht ⟨offset, head ++ (body ++ suffix)⟩ with h | ⟨-, h⟩
  · rw [checked_bind_of_ok (h.trans (congrArg some (hr offset (body ++ suffix))))]
    exact hg _ suffix
  · exact checked_bind_of_none h

theorem stops_demand {p : Prop} [Decidable p] (hg : p → Stops (g x) bytes) :
    Stops (Checked.demand (if p then some x else none) >>= g) bytes := by
  intro offset suffix
  by_cases hp : p
  · rw [if_pos hp, checked_bind_of_ok (demand_some x _)]
    exact hg hp offset suffix
  · rw [if_neg hp]
    exact checked_bind_of_none (demand_none _)

/-- A block of one part, as long as the part has to be. -/
def loneBlock (width : UInt64) (body : List UInt8) : List UInt8 :=
  [2] ++ (body ++ List.replicate (width.toNat - body.length) 0)

theorem length_loneBlock (width : UInt64) (body : List UInt8) :
    (loneBlock width body).length = 1 + max width.toNat body.length := by
  simp only [loneBlock, List.length_append, List.length_singleton, List.length_replicate]
  omega

/-- The block passes and stops where its part does. -/
theorem stops_readBlocks {width : UInt64} {decoded : σ → Nat} {parts : Nat → σ → Checked σ} {state : σ}
    (hd : decoded state = 0) (hp : Stops (parts 1 state) body) {rest : List UInt8} (hr : 0 < rest.length) :
    Stops (Checked.readBlocks width decoded parts rest state) (loneBlock width body) := by
  obtain ⟨b, rest, rfl⟩ := List.exists_cons_of_length_pos hr
  have hcount : Yields Varint.readCount [2] 1 := fun _ _ => rfl
  refine hcount.bind_stops (follows_checked [] _) ?_
  rw [if_neg Nat.one_ne_zero]
  have hblock := hp.append (List.replicate (width.toNat - body.length) 0)
  have hlength : width.toNat ≤ (body ++ List.replicate (width.toNat - body.length) 0).length := by
    rw [List.length_append, List.length_replicate]
    omega
  generalize body ++ List.replicate (width.toNat - body.length) 0 = bytes at hblock hlength
  intro offset suffix
  have hpass : checkBlock .everyBlock 1 width (decoded state) ⟨offset, bytes ++ suffix⟩ =
      .ok ((), ⟨offset, bytes ++ suffix⟩) := by
    refine checkBlock_of_fits ?_ fun _ => ?_
    · rw [List.length_append]
      omega
    · rw [hd]
      decide
  rw [checked_bind_of_ok (congrArg some hpass)]
  exact hblock.bind offset suffix

/-- A container looks at all the bytes that remain before its blocks. -/
theorem stops_remaining {g : List UInt8 → Checked β} (hb : 0 < bytes.length)
    (hg : ∀ rest, 0 < rest.length → Stops (g rest) bytes) : Stops (remaining.checked >>= g) bytes := by
  intro offset suffix
  have hrest : remaining.checked ⟨offset, bytes ++ suffix⟩ = some (.ok (bytes ++ suffix, ⟨offset, bytes ++ suffix⟩)) :=
    rfl
  rw [checked_bind_of_ok hrest]
  refine hg _ ?_ offset suffix
  rw [List.length_append]
  exact Nat.add_pos_left hb _

/-- For each of the lengths, some bytes of it stop reading. -/
def Halts (s : Schema) : Prop :=
  ∀ n ∈ s.stopLengths, ∃ bytes : List UInt8, bytes.length = n ∧ ∀ old, Stops (Checked.readDatum s old) bytes

theorem halts_array {items : Schema} (h : Halts items) : Halts (.array items) := by
  intro n hn
  rw [Schema.stopLengths] at hn
  split at hn
  · rename_i hfits
    obtain ⟨length, hl, rfl⟩ := List.mem_map.1 hn
    obtain ⟨body, rfl, hstop⟩ := h length hl
    refine ⟨loneBlock items.width body, ?_, fun old => ?_⟩
    · rw [length_loneBlock, Schema.toNat_width_of_lt hfits]
    · rw [Checked.readDatum, Schema.width?_eq]
      refine stops_demand fun _ => stops_remaining (Nat.succ_pos _) fun rest hr => Stops.bind ?_
      exact stops_readBlocks (Slots.filled_reusing old) (hstop _).bind hr
  · rename_i hwide
    obtain rfl := List.mem_singleton.1 hn
    refine ⟨[], rfl, fun old => ?_⟩
    rw [Checked.readDatum, Schema.width?_eq]
    exact stops_demand fun hfits => absurd hfits hwide

/-- A part of a map is a value under a key, at its shortest the empty one. -/
theorem halts_map {values : Schema} (h : Halts values) : Halts (.map values) := by
  intro n hn
  rw [Schema.stopLengths] at hn
  split at hn
  · rename_i hfits
    obtain ⟨length, hl, rfl⟩ := List.mem_map.1 hn
    obtain ⟨body, rfl, hstop⟩ := h length hl
    refine ⟨loneBlock values.entryWidth ([0] ++ body), ?_, fun old => ?_⟩
    · rw [length_loneBlock, Schema.toNat_entryWidth_of_lt hfits, List.length_append, List.length_singleton]
    · have hname : Yields readText [0] "" := fun _ _ => rfl
      have hcount : (Pairs.reusing old).count = 0 := by rw [Pairs.count, Pairs.read_reusing, List.length_nil]
      rw [Checked.readDatum, Schema.entryWidth?_eq]
      refine stops_demand fun _ => stops_remaining (Nat.succ_pos _) fun rest hr => Stops.bind ?_
      exact stops_readBlocks hcount (hname.bind_stops (follows_checked [] _) (hstop _).bind) hr
  · rename_i hwide
    obtain rfl := List.mem_singleton.1 hn
    refine ⟨[], rfl, fun old => ?_⟩
    rw [Checked.readDatum, Schema.entryWidth?_eq]
    exact stops_demand fun hfits => absurd hfits hwide

/-- A field stops it at once, or a later one does behind a shortest blob of this one. -/
theorem stops_readFields {fields : List Field} (ha : ∀ field ∈ fields, Attained field.schema)
    (h : ∀ field ∈ fields, Halts field.schema) {n : Nat} (hn : n ∈ Schema.fieldsStopLengths fields) :
    ∃ bytes : List UInt8, bytes.length = n ∧ ∀ old, Stops (Checked.readFields fields old) bytes := by
  induction fields generalizing n with
  | nil => cases hn
  | cons field fields ih =>
      obtain ⟨name, schema, default⟩ := field
      obtain ⟨hattained, ha⟩ := List.forall_mem_cons.1 ha
      obtain ⟨hhead, h⟩ := List.forall_mem_cons.1 h
      rcases List.mem_append.1 hn with hn | hn
      · obtain ⟨bytes, hlen, hstop⟩ := hhead n hn
        exact ⟨bytes, hlen, fun old => (hstop _).bind⟩
      · obtain ⟨length, hl, rfl⟩ := List.mem_map.1 hn
        obtain ⟨body, hlen, hstop⟩ := ih ha h hl
        obtain ⟨head, value, hd, hshort⟩ := hattained
        rw [← blobs_eq_decoded] at hd
        refine ⟨head ++ body, ?_, fun old => (hd.yields _).bind_stops (tracks schema _) (hstop _).bind⟩
        rw [List.length_append, hshort, hlen]

theorem stops_readBranch {branches : List Schema} {position : Nat} {branch : Schema}
    (hb : branches[position]? = some branch) (h : ∀ old, Stops (Checked.readDatum branch old) bytes)
    (count index : Nat) (old : Datum) : Stops (Checked.readBranch count index branches position old) bytes := by
  induction branches generalizing position with
  | nil => cases hb
  | cons first branches ih =>
      cases position with
      | zero =>
          cases hb
          exact h _
      | succ position => exact ih hb

theorem halts {s : Schema} (hs : s.Sound) (hc : s.Countable) : Halts s := by
  induction s using Schema.children_induction with
  | step s ih =>
    have hchild : ∀ child ∈ s.children, Halts child :=
      fun child hm => ih child hm (hs.child hm) (Schema.Everywhere.child hc hm)
    cases s with
    | array items => exact halts_array (hchild items (List.mem_singleton_self _))
    | map values => exact halts_map (hchild values (List.mem_singleton_self _))
    | record name fields =>
        intro n hn
        have hattained : ∀ field ∈ fields, Attained field.schema := fun field hm =>
          attained (hs.child (List.mem_map_of_mem hm)) (Schema.Everywhere.child hc (List.mem_map_of_mem hm))
        obtain ⟨bytes, hlen, hstop⟩ :=
          stops_readFields hattained (fun field hm => hchild _ (List.mem_map_of_mem hm)) hn
        exact ⟨bytes, hlen, fun old => (hstop _).bind⟩
    | union branches =>
        intro n hn
        obtain ⟨index, branch, hb, length, hl, rfl⟩ := Schema.mem_stopLengths_union.1 hn
        obtain ⟨body, hlen, hstop⟩ := hchild branch (List.mem_of_getElem? hb) length hl
        have hcount : branches.length < 2 ^ 63 := hc _ (.self _) _ (List.mem_singleton_self _)
        have hlt : index < branches.length := (List.getElem?_eq_some_iff.1 hb).1
        have hplace := Varint.yields_readNat (Nat.lt_trans hlt hcount)
        refine ⟨Varint.encodeNat index ++ body, ?_, fun old => ?_⟩
        · rw [List.length_append, hlen, Schema.behind]
        · exact hplace.bind_stops (follows_checked [] _) (stops_readBranch hb hstop _ _ _)
    | _ => exact fun _ hn => absurd hn List.not_mem_nil

end Blob

end Docket
