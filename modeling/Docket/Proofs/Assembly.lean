import Docket.Record.Assemble
import Docket.Proofs.Blob.Reuse
import Docket.Proofs.FieldRoundTrip
import Docket.Proofs.Schema.Positions

/-!
# Named fields are read alike, whichever are named

Reading goes through the named fields one after the other into one record, and
builds decoders on its way. None of that shows: each named field ends up as what it
is read as by itself, into a record of its own, and the first one that cannot be
read ends the reading. So the record depends on which fields are named, in any order
and however often, and agrees with the record of all fields where both have one.
-/
namespace Docket

/-- What a field is read as depends neither on the record it is read for nor on the
decoders that are there. -/
theorem Field.result_decode_eq {desk later : Desk} (hc : desk.cache.Coherent) (hl : later.cache.Coherent)
    (field : String) (position : Nat) (schema : Schema) (raw : Option Json) (record other : Record) :
    (decode field position schema raw record desk).result = (decode field position schema raw other later).result := by
  rw [(decode_eq hc hl field position schema raw record).1]
  unfold decode
  split
  · rfl
  · rfl
  · dsimp only
    split
    · unfold decodeBlob
      split
      · rfl
      · split
        · rfl
        · rename_i d left hd
          obtain ⟨-, hw, -⟩ := decoder_works hl (show (later.decoder _).1 = .ok d by rw [hd])
          dsimp only
          rw [hw, hw]
          exact Blob.decode_overwriting _ _ _ _
    · rfl

/-- Bits without a mark are those of a clean record. -/
theorem DirtyBits.eq_clean {d : DirtyBits} (h : d.any = false) : d = clean d.length := by
  obtain ⟨length, words, sized⟩ := d
  have hw : words = List.replicate ((length + 63) / 64) 0 :=
    List.eq_replicate_iff.2 ⟨sized, fun word hm => by simpa using List.any_eq_false.1 h word hm⟩
  subst hw
  rfl

namespace Record

/-- Records of one schema are equal if their values and marks are and both or neither
is new. -/
theorem ext_get? {r s : Record} (hs : r.schema = s.schema) (hv : ∀ position, r.get? position = s.get? position)
    (hd : r.dirty = s.dirty) (hn : r.isNew = s.isNew) : r = s := by
  obtain ⟨_, values, _, _, _, _⟩ := r
  obtain ⟨_, others, _, _, _, _⟩ := s
  obtain rfl : values = others := List.ext_getElem? hv
  subst hs hd hn
  rfl

@[simp] theorem schema_put (record : Record) (position : Nat) (value : Datum) :
    (record.put position value).schema = record.schema := by
  unfold put
  split <;> rfl

theorem get?_put_self {record : Record} {position : Nat} (hp : position < record.schema.size) (value : Datum) :
    (record.put position value).get? position = some value := by
  have hl : position < record.values.length := by rw [record.values_length]; exact hp
  rw [put, if_pos hl]
  exact List.getElem?_set_self hl

theorem get?_put_of_ne (record : Record) {position other : Nat} (h : other ≠ position) (value : Datum) :
    (record.put position value).get? other = record.get? other := by
  unfold put
  split
  · exact List.getElem?_set_ne (Ne.symm h)
  · rfl

theorem get?_setValue_of_ne (record : Record) {position other : Nat} (h : other ≠ position) (value : Datum) :
    (record.setValue position value).get? other = record.get? other :=
  List.getElem?_set_ne (Ne.symm h)

theorem isDirty_markClean (record : Record) : record.markClean.isDirty = false := by
  simp [markClean, setNew, clearDirty, isDirty, DirtyBits.any, DirtyBits.clear]

theorem exists_get? (record : Record) {position : Nat} (hp : position < record.schema.size) :
    ∃ value, record.get? position = some value :=
  ⟨_, List.getElem?_eq_getElem (by rw [record.values_length]; exact hp)⟩

theorem get?_fresh {schema : RecordSchema} {position : Nat} (hp : position < schema.size) :
    (fresh schema).get? position = some .null := by
  rw [get?, fresh, List.getElem?_replicate, if_pos hp]

/-! ### Reading field after field -/

variable {schema : RecordSchema} {document : Document} {record : Record} {desk later : Desk} {names : List String}

/-- A field of a document read by itself, into a record of its own. -/
def alone (schema : RecordSchema) (document : Document) (desk : Desk) (position : Nat) (field : Field) :
    Except ValueError Datum :=
  (Field.decode field.name position field.schema (document.find? field.name) (fresh schema) desk).result

theorem result_decode_eq_alone (hc : desk.cache.Coherent) (hl : later.cache.Coherent) (schema : RecordSchema)
    (document : Document) (position : Nat) (field : Field) (record : Record) :
    (Field.decode field.name position field.schema (document.find? field.name) record desk).result =
      alone schema document later position field :=
  Field.result_decode_eq hc hl _ _ _ _ _ _

/-- Every name is that of a field that can be read by itself. -/
def Readable (schema : RecordSchema) (document : Document) (desk : Desk) (names : List String) : Prop :=
  ∀ name ∈ names, ∃ position field value, schema.fields[position]? = some field ∧ field.name = name ∧
    alone schema document desk position field = .ok value

/-- A name that is no field's, or that of a field that cannot be read by itself. -/
def Refused (schema : RecordSchema) (document : Document) (desk : Desk) (name : String) (e : ValueError) : Prop :=
  (name ∉ schema.fieldNames ∧ e = .unknownField name) ∨
    ∃ position field, schema.fields[position]? = some field ∧ field.name = name ∧
      alone schema document desk position field = .error e

theorem Readable.not_refused (h : Readable schema document desk names) {name : String} (hn : name ∈ names)
    {e : ValueError} : ¬Refused schema document desk name e := by
  obtain ⟨position, field, value, hf, rfl, hv⟩ := h name hn
  rintro (⟨hm, -⟩ | ⟨other, found, hg, heq, he⟩)
  · exact hm (List.mem_map_of_mem (List.mem_of_getElem? hf))
  · obtain rfl := RecordSchema.position_eq_of_name_eq hg hf heq
    obtain rfl := Option.some.inj (hg.symm.trans hf)
    rw [hv] at he
    cases he

/-- The named fields hold what each of them is read as, and the others what they held. -/
structure Filled (schema : RecordSchema) (document : Document) (desk : Desk) (names : List String)
    (before after : Record) : Prop where
  named : ∀ position field, schema.fields[position]? = some field → field.name ∈ names →
    ∃ value, alone schema document desk position field = .ok value ∧ after.get? position = some value
  other : ∀ position field, schema.fields[position]? = some field → field.name ∉ names →
    after.get? position = before.get? position
  schema : after.schema = before.schema

theorem Filled.nil (schema : RecordSchema) (document : Document) (desk : Desk) (record : Record) :
    Filled schema document desk [] record record :=
  ⟨fun _ _ _ hn => absurd hn List.not_mem_nil, fun _ _ _ _ => rfl, rfl⟩

theorem Filled.cons {name : String} {before between after : Record}
    (hf : Filled schema document desk [name] before between) (h : Filled schema document desk names between after) :
    Filled schema document desk (name :: names) before after := by
  constructor
  case schema => rw [h.schema, hf.schema]
  case named =>
    intro position field hp hn
    by_cases hm : field.name ∈ names
    · exact h.named position field hp hm
    · rw [h.other position field hp hm]
      refine hf.named position field hp ?_
      exact List.mem_singleton.2 ((List.mem_cons.1 hn).resolve_right hm)
  case other =>
    intro position field hp hn
    have hname : field.name ∉ [name] := fun hm => hn (List.mem_singleton.1 hm ▸ List.mem_cons_self)
    rw [h.other position field hp fun hm => hn (List.mem_cons_of_mem _ hm), hf.other position field hp hname]

theorem readFields_cons {position : Nat} {field : Field} (h : record.schema.fields[position]? = some field)
    (rest : List String) :
    readFields document record desk (field.name :: rest) =
      let outcome := Field.decode field.name position field.schema (document.find? field.name) record desk
      match outcome.result with
      | .error e => ⟨.error e, outcome.desk⟩
      | .ok value => readFields document (outcome.record.put position value) outcome.desk rest := by
  have hp := RecordSchema.position?_of_getElem? h
  have hf := RecordSchema.field?_of_getElem? h
  rw [readFields]
  split
  · rename_i hp' hf'
    cases hp.symm.trans hp'
    cases hf.symm.trans hf'
    rfl
  · rename_i hn
    exact (hn _ _ hp hf).elim

theorem readFields_cons_of_not_mem {name : String} (h : name ∉ record.schema.fieldNames) (rest : List String) :
    readFields document record desk (name :: rest) = ⟨.error (.unknownField name), desk⟩ := by
  rw [readFields]
  split
  · rename_i position field hp _
    obtain ⟨found, hf, rfl⟩ := RecordSchema.position?_eq_some_iff.1 hp
    exact absurd (List.mem_map_of_mem (List.mem_of_getElem? hf)) h
  · rfl

/-- Reading one field fills it, and it alone. -/
theorem filled_decode {position : Nat} {field : Field} {value : Datum} (hs : record.schema = schema)
    (hf : schema.fields[position]? = some field) (hv : alone schema document later position field = .ok value)
    (desk : Desk) :
    Filled schema document later [field.name] record
      ((Field.decode field.name position field.schema (document.find? field.name) record desk).record.put position
        value) := by
  have hr := Field.record_decode field.name position field.schema (document.find? field.name) record desk
  generalize (Field.decode field.name position field.schema (document.find? field.name) record desk).record = left
    at hr
  have hl : left.schema = record.schema := by
    rcases hr with rfl | rfl <;> rfl
  have hp : position < left.schema.size := by
    rw [hl, hs]
    exact (List.getElem?_eq_some_iff.1 hf).1
  constructor
  case schema => rw [schema_put, hl]
  case named =>
    intro other found hg hn
    obtain rfl := RecordSchema.position_eq_of_name_eq hg hf (List.mem_singleton.1 hn)
    obtain rfl := Option.some.inj (hg.symm.trans hf)
    exact ⟨value, hv, get?_put_self hp value⟩
  case other =>
    intro other found hg hn
    have hne : other ≠ position := by
      rintro rfl
      exact hn (List.mem_singleton.2 (congrArg Field.name (Option.some.inj (hg.symm.trans hf))))
    rw [get?_put_of_ne _ hne]
    rcases hr with rfl | rfl
    · rfl
    · exact get?_setValue_of_ne _ hne _

/-- Reading named fields fills them all, or ends with the refusal of one of them. -/
theorem readFields_cases (hs : record.schema = schema) (hc : desk.cache.Coherent) (hl : later.cache.Coherent)
    (document : Document) (names : List String) :
    (∃ after, (readFields document record desk names).result = .ok after ∧ Readable schema document later names ∧
        Filled schema document later names record after) ∨
      ∃ name ∈ names, ∃ e, (readFields document record desk names).result = .error e ∧
        Refused schema document later name e := by
  induction names generalizing record desk with
  | nil => exact .inl ⟨record, rfl, fun name hn => absurd hn List.not_mem_nil, .nil _ _ _ _⟩
  | cons name rest ih =>
      by_cases hn : name ∈ schema.fieldNames
      · obtain ⟨field, hm, rfl⟩ := List.mem_map.1 hn
        obtain ⟨position, hf⟩ := List.getElem?_of_mem hm
        rw [readFields_cons (by rw [hs]; exact hf)]
        dsimp only
        rw [result_decode_eq_alone hc hl schema document position field record]
        cases hv : alone schema document later position field with
        | error e => exact .inr ⟨field.name, List.mem_cons_self, e, rfl, .inr ⟨position, field, hf, rfl, hv⟩⟩
        | ok value =>
            have hfill := filled_decode hs hf hv desk
            have hnext := Field.coherent_decode hc field.name position field.schema (document.find? field.name) record
            obtain ⟨after, hok, hr, hafter⟩ | ⟨name, hn, e, he, hrefused⟩ := ih (hfill.schema.trans hs) hnext
            · exact .inl ⟨after, hok, List.forall_mem_cons.2 ⟨⟨position, field, value, hf, rfl, hv⟩, hr⟩,
                hfill.cons hafter⟩
            · exact .inr ⟨name, List.mem_cons_of_mem _ hn, e, he, hrefused⟩
      · rw [readFields_cons_of_not_mem (by rw [hs]; exact hn)]
        exact .inr ⟨name, List.mem_cons_self, _, rfl, .inl ⟨hn, rfl⟩⟩

/-! ### The assembled record -/

/-- The names that are read: those given, or all if none is. -/
def requested (schema : RecordSchema) (names : List String) : List String :=
  if names.isEmpty then schema.fieldNames else names

theorem result_assemble (schema : RecordSchema) (document : Document) (names : List String) (desk : Desk) :
    (assemble schema document names desk).result =
      (readFields document (fresh schema) desk (requested schema names)).result.map
        markClean := by
  unfold assemble requested
  dsimp only
  split
  · rename_i e he
    rw [he]
    rfl
  · rename_i record he
    rw [he]
    rfl

/-! ### Decoders do not matter -/

theorem coherent_readFields (hc : desk.cache.Coherent) (document : Document) (record : Record) (names : List String) :
    (readFields document record desk names).desk.cache.Coherent := by
  induction names generalizing record desk with
  | nil => exact hc
  | cons name rest ih =>
      rw [readFields]
      split
      · rename_i position field _ _
        have hd := Field.coherent_decode hc field.name position field.schema (document.find? field.name) record
        dsimp only
        split
        · exact hd
        · exact ih hd _
      · exact hc

theorem coherent_assemble (hc : desk.cache.Coherent) (schema : RecordSchema) (document : Document)
    (names : List String) : (assemble schema document names desk).desk.cache.Coherent := by
  have hr := coherent_readFields hc document (fresh schema)
  unfold assemble
  dsimp only
  split
  · exact hr _
  · split <;> exact hr _

theorem readFields_eq {later : Desk} (hc : desk.cache.Coherent) (hl : later.cache.Coherent) (document : Document)
    (record : Record) (names : List String) :
    (readFields document record desk names).result = (readFields document record later names).result := by
  induction names generalizing record desk later with
  | nil => rfl
  | cons name rest ih =>
      rw [readFields, readFields]
      split
      · rename_i position field _ _
        obtain ⟨hresult, hrecord⟩ :=
          Field.decode_eq hc hl field.name position field.schema (document.find? field.name) record
        dsimp only
        rw [hresult, hrecord]
        split
        · rfl
        · exact ih (Field.coherent_decode hc _ _ _ _ _) (Field.coherent_decode hl _ _ _ _ _) _
      · rfl

/-- The record that a document is read as does not depend on the decoders that are there. -/
theorem assemble_eq {later : Desk} (hc : desk.cache.Coherent) (hl : later.cache.Coherent) (schema : RecordSchema)
    (document : Document) (names : List String) :
    (assemble schema document names desk).result = (assemble schema document names later).result := by
  rw [result_assemble, result_assemble, readFields_eq hc hl]

/-! ### Which fields are named -/

/-- The record is clean and not new, holds what each of the named fields is read as by
itself, and null in the others. -/
structure Assembled (schema : RecordSchema) (document : Document) (desk : Desk) (names : List String)
    (record : Record) : Prop where
  clean : record.isDirty = false
  known : record.isNew = false
  named : ∀ position field, schema.fields[position]? = some field → field.name ∈ names →
    ∃ value, alone schema document desk position field = .ok value ∧ record.get? position = some value
  other : ∀ position field, schema.fields[position]? = some field → field.name ∉ names →
    record.get? position = some .null
  schema : record.schema = schema

theorem Filled.assembled {after : Record} (h : Filled schema document desk names (fresh schema) after) :
    Assembled schema document desk names after.markClean where
  schema := h.schema
  clean := isDirty_markClean after
  known := rfl
  named := h.named
  other position field hf hn := by
    have hp : position < schema.size := (List.getElem?_eq_some_iff.1 hf).1
    exact (h.other position field hf hn).trans (get?_fresh hp)

theorem Assembled.congr {others : List String} (h : Assembled schema document desk names record)
    (ho : ∀ name, name ∈ others ↔ name ∈ names) : Assembled schema document desk others record where
  schema := h.schema
  clean := h.clean
  known := h.known
  named position field hf hn := h.named position field hf ((ho _).1 hn)
  other position field hf hn := h.other position field hf fun hm => hn ((ho _).2 hm)

/-- The names that are read leave no choice of the record. -/
theorem Assembled.unique {other : Record} (h : Assembled schema document desk names record)
    (ho : Assembled schema document desk names other) : record = other := by
  refine ext_get? (h.schema.trans ho.schema.symm) (fun position => ?_) ?_ (h.known.trans ho.known.symm)
  · cases hf : schema.fields[position]? with
    | none =>
        have hout : schema.size ≤ position := List.getElem?_eq_none_iff.1 hf
        have hr : record.values.length ≤ position := by rw [record.values_length, h.schema]; exact hout
        have hs : other.values.length ≤ position := by rw [other.values_length, ho.schema]; exact hout
        rw [get?, get?, List.getElem?_eq_none hr, List.getElem?_eq_none hs]
    | some field =>
        by_cases hn : field.name ∈ names
        · obtain ⟨value, hv, hg⟩ := h.named position field hf hn
          obtain ⟨value', hv', hg'⟩ := ho.named position field hf hn
          obtain rfl := Except.ok.inj (hv.symm.trans hv')
          rw [hg, hg']
        · rw [h.other position field hf hn, ho.other position field hf hn]
  · rw [DirtyBits.eq_clean h.clean, DirtyBits.eq_clean ho.clean, record.dirty_length, other.dirty_length, h.schema,
      ho.schema]

theorem assemble_cases (hc : desk.cache.Coherent) (hl : later.cache.Coherent) (schema : RecordSchema)
    (document : Document) (names : List String) :
    (∃ record, (assemble schema document names desk).result = .ok record ∧
        Readable schema document later (requested schema names) ∧
        Assembled schema document later (requested schema names) record) ∨
      ∃ name ∈ requested schema names, ∃ e, (assemble schema document names desk).result = .error e ∧
        Refused schema document later name e := by
  rw [result_assemble]
  have hs : (fresh schema).schema = schema := rfl
  obtain ⟨after, hok, hr, hf⟩ | ⟨name, hn, e, he, hr⟩ :=
    readFields_cases hs hc hl document (requested schema names)
  · exact .inl ⟨after.markClean, by rw [hok]; rfl, hr, hf.assembled⟩
  · exact .inr ⟨name, hn, e, by rw [he]; rfl, hr⟩

theorem readable_of_assemble (hc : desk.cache.Coherent) (hl : later.cache.Coherent)
    (h : (assemble schema document names desk).result = .ok record) :
    Readable schema document later (requested schema names) ∧
      Assembled schema document later (requested schema names) record := by
  obtain ⟨found, hok, hr, ha⟩ | ⟨name, -, e, he, -⟩ := assemble_cases hc hl schema document names
  · rw [Except.ok.inj (h.symm.trans hok)]
    exact ⟨hr, ha⟩
  · rw [h] at he
    cases he

theorem assemble_of_readable (hc : desk.cache.Coherent) (hl : later.cache.Coherent)
    (h : Readable schema document later (requested schema names)) :
    ∃ record, (assemble schema document names desk).result = .ok record ∧
      Assembled schema document later (requested schema names) record := by
  obtain ⟨record, hok, -, ha⟩ | ⟨name, hn, e, -, hr⟩ := assemble_cases hc hl schema document names
  · exact ⟨record, hok, ha⟩
  · exact absurd hr (h.not_refused hn)

/-- Names that are read in another order, or more than once, give the same record. -/
theorem assemble_of_same_names {others : List String} (hc : desk.cache.Coherent) (hl : later.cache.Coherent)
    (ho : ∀ name, name ∈ requested schema others ↔ name ∈ requested schema names)
    (h : (assemble schema document names desk).result = .ok record) :
    (assemble schema document others later).result = .ok record := by
  obtain ⟨hr, ha⟩ := readable_of_assemble hc hl h
  obtain ⟨other, hok, hother⟩ := assemble_of_readable hl hl fun name hn => hr name ((ho name).1 hn)
  rw [hok, hother.unique (ha.congr ho)]

/-- A document is assembled exactly when each requested name is that of a field that
can be read by itself. The record then holds what these are read as and is null
elsewhere, so neither the order of the names nor their number matters, and it agrees
with the record of all fields. The decoders that are there never matter. -/
theorem assemble_alone (schema : RecordSchema) (document : Document) (names : List String) (hc : desk.Requested)
    (hl : later.Requested) :
    ((∃ record, (assemble schema document names desk).result = .ok record) ↔
        Readable schema document later (requested schema names)) ∧
      (∀ record, (assemble schema document names desk).result = .ok record →
        Assembled schema document later (requested schema names) record) ∧
      (∀ others, (∀ name, name ∈ requested schema others ↔ name ∈ requested schema names) →
        ∀ record, (assemble schema document others later).result = .ok record ↔
          (assemble schema document names desk).result = .ok record) ∧
      ∀ full, (assemble schema document [] later).result = .ok full → (∀ name ∈ names, name ∈ schema.fieldNames) →
        ∃ record, (assemble schema document names desk).result = .ok record ∧
          ∀ position field, schema.fields[position]? = some field → field.name ∈ requested schema names →
            record.get? position = full.get? position := by
  have hc := hc.coherent
  have hl := hl.coherent
  refine ⟨⟨?_, ?_⟩, ?_, ?_, ?_⟩
  · rintro ⟨record, h⟩
    exact (readable_of_assemble hc hl h).1
  · intro h
    obtain ⟨record, hok, -⟩ := assemble_of_readable hc hl h
    exact ⟨record, hok⟩
  · intro record h
    exact (readable_of_assemble hc hl h).2
  · intro others ho record
    exact ⟨assemble_of_same_names hl hc fun name => (ho name).symm, assemble_of_same_names hc hl ho⟩
  · intro full h hn
    have hsub : ∀ name ∈ requested schema names, name ∈ schema.fieldNames := by
      intro name hm
      rw [requested] at hm
      split at hm
      · exact hm
      · exact hn name hm
    obtain ⟨hr, ha⟩ := readable_of_assemble hl hl h
    obtain ⟨record, hok, hrecord⟩ := assemble_of_readable hc hl fun name hm => hr name (hsub name hm)
    refine ⟨record, hok, fun position field hf hm => ?_⟩
    obtain ⟨value, hv, hg⟩ := hrecord.named position field hf hm
    obtain ⟨value', hv', hg'⟩ := ha.named position field hf (hsub _ hm)
    obtain rfl := Except.ok.inj (hv.symm.trans hv')
    rw [hg, hg']

/-- A profile of a name, tags and an age. -/
def profileSchema : RecordSchema :=
  ⟨"Profile", [⟨"name", .string, none⟩, ⟨"tags", .array .string, none⟩, ⟨"age", .int, none⟩], rfl⟩

/-- The age is not a number, so not all fields can be read. -/
def profileDocument : Document :=
  .ofList [("_id", .string "p1"), ("name", .string "Ada"), ("tags", .string "AgJhAA=="), ("age", .string "old")]

/-- The tags are read twice, the second time over themselves, and then once, by a
decoder that is there already. -/
theorem assemble_alone_profile : ∃ record,
    (assemble profileSchema profileDocument ["tags", "name", "tags"] (.opened .info)).result = .ok record ∧
      record.get? 0 = some (.string "Ada") ∧ record.get? 1 = some (.array [.string "a"]) ∧
      record.get? 2 = some .null ∧
      (assemble profileSchema profileDocument ["name", "tags"]
        ((Desk.opened .info).afterRequests [.array .string])).result = .ok record := by
  have hc : (Desk.opened .info).Requested := ⟨.opened .info, .zero, [], rfl⟩
  have hl : ((Desk.opened .info).afterRequests [.array .string]).Requested :=
    ⟨.opened .info, .zero, [.array .string], rfl⟩
  have hname : alone profileSchema profileDocument ((Desk.opened .info).afterRequests [.array .string]) 0
      ⟨"name", .string, none⟩ = .ok (.string "Ada") := rfl
  have htags : alone profileSchema profileDocument ((Desk.opened .info).afterRequests [.array .string]) 1
      ⟨"tags", .array .string, none⟩ = .ok (.array [.string "a"]) := by with_unfolding_all rfl
  obtain ⟨hiff, hassembled, hsame, -⟩ :=
    assemble_alone profileSchema profileDocument ["tags", "name", "tags"] hc hl
  obtain ⟨record, hr⟩ := hiff.2 (by
    simp only [Readable, requested, List.isEmpty_cons, Bool.false_eq_true, if_false, List.forall_mem_cons]
    exact ⟨⟨1, _, _, rfl, rfl, htags⟩, ⟨0, _, _, rfl, rfl, hname⟩, ⟨1, _, _, rfl, rfl, htags⟩,
      fun _ hn => absurd hn List.not_mem_nil⟩)
  have ha := hassembled record hr
  obtain ⟨name, hn, hname'⟩ := ha.named 0 _ rfl (by decide)
  obtain ⟨tags, ht, htags'⟩ := ha.named 1 _ rfl (by decide)
  obtain rfl := Except.ok.inj (hname.symm.trans hn)
  obtain rfl := Except.ok.inj (htags.symm.trans ht)
  refine ⟨record, hr, hname', htags', ha.other 2 _ rfl (by decide), (hsame ["name", "tags"] (fun name => ?_) record).2 hr⟩
  simp only [requested, List.isEmpty_cons, Bool.false_eq_true, if_false, List.mem_cons]
  grind

end Record

end Docket
