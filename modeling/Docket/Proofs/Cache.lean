import Docket.Field

/-!
# What a grown cache changes

Nothing: a cache never gives up a decoder, and once a value was brought into its
stored form, a cache that has grown since gives the same stored form.
-/
namespace Docket

/-- Every decoder that was there is still there. -/
def Desk.Extends (later earlier : Desk) : Prop :=
  ∀ form decoder, earlier.cache.decoders.find? form = some decoder →
    later.cache.decoders.find? form = some decoder

namespace Desk

variable {desk later left : Desk} {schema : Schema} {d : Decoder}

theorem Extends.refl (desk : Desk) : desk.Extends desk :=
  fun _ _ h => h

theorem Extends.trans {latest : Desk} (h : latest.Extends later) (hl : later.Extends desk) :
    latest.Extends desk :=
  fun form decoder hf => h form decoder (hl form decoder hf)

theorem extends_of_cache_eq (h : later.cache = desk.cache) : later.Extends desk :=
  fun form decoder hf => by rw [h]; exact hf

/-- A request for a decoder finds one, has one built or is refused; the cache it
leaves is spelled out. -/
theorem decoder_outcome (desk : Desk) (schema : Schema) :
    (∃ d, desk.cache.decoders.find? schema.canonicalForm = some d ∧ (desk.decoder schema).1 = .ok d ∧
        (desk.decoder schema).2.cache = { desk.cache with hits := desk.cache.hits + 1 }) ∨
      (∃ d, desk.cache.decoders.find? schema.canonicalForm = none ∧
        Decoder.build schema desk.cache.builds = .ok d ∧ (desk.decoder schema).1 = .ok d ∧
        (desk.decoder schema).2.cache =
          ⟨desk.cache.decoders.insert schema.canonicalForm d, desk.cache.hits, desk.cache.builds + 1⟩) ∨
      ∃ e, desk.cache.decoders.find? schema.canonicalForm = none ∧
        Decoder.build schema desk.cache.builds = .error e ∧ desk.decoder schema = (.error e, desk) := by
  cases hc : desk.cache.decoders.find? schema.canonicalForm with
  | some d => exact .inl ⟨d, rfl, by simp only [decoder, hc], by simp only [decoder, hc]⟩
  | none =>
      cases hb : Decoder.build schema desk.cache.builds with
      | ok d => exact .inr (.inl ⟨d, rfl, rfl, by simp only [decoder, hc, hb], by simp only [decoder, hc, hb]; rfl⟩)
      | error e => exact .inr (.inr ⟨e, rfl, rfl, by simp only [decoder, hc, hb]⟩)

theorem decoder_extends (desk : Desk) (schema : Schema) : (desk.decoder schema).2.Extends desk := by
  intro form found hf
  obtain ⟨_, -, -, hl⟩ | ⟨built, hn, -, -, hl⟩ | ⟨e, -, -, hd⟩ := decoder_outcome desk schema
  · rw [hl]
    exact hf
  · have hne : form ≠ schema.canonicalForm := fun h => by
      rw [h, hn] at hf
      cases hf
    rw [hl, Keyed.find?_insert_of_ne _ hne]
    exact hf
  · rw [hd]
    exact hf

/-- A decoder that was handed out is handed out again. -/
theorem decoder_of_extends (h : (desk.decoder schema).1 = .ok d)
    (hl : later.Extends (desk.decoder schema).2) : (later.decoder schema).1 = .ok d := by
  have hf : (desk.decoder schema).2.cache.decoders.find? schema.canonicalForm = some d := by
    obtain ⟨found, hc, hd, hs⟩ | ⟨built, -, -, hd, hs⟩ | ⟨e, -, -, hd⟩ := decoder_outcome desk schema
    · rw [hs, ← Except.ok.inj (hd.symm.trans h)]
      exact hc
    · rw [hs, ← Except.ok.inj (hd.symm.trans h)]
      exact Keyed.find?_insert_self _ _ _
    · rw [hd] at h
      cases h
  simp only [decoder, hl _ _ hf]

end Desk

namespace Field

variable {name : String} {schema : Schema} {value : Datum} {desk later : Desk} {stored : Json}

/-- Storing a value leaves the desk as it was, or as a request for a decoder leaves it. -/
theorem desk_encode (name : String) (schema : Schema) (value : Datum) (desk : Desk) :
    (encode name schema value desk).2 = desk ∨
      (encode name schema value desk).2 = (desk.decoder schema.carrier).2 := by
  unfold encode
  split
  · exact .inl rfl
  · dsimp only
    split
    · split
      · rename_i hd
        exact .inr (congrArg Prod.snd hd).symm
      · rename_i hd
        exact .inr (congrArg Prod.snd hd).symm
    · exact .inl rfl

/-- And so does reading one. -/
theorem desk_decode (name : String) (position : Nat) (schema : Schema) (raw : Option Json) (record : Record)
    (desk : Desk) : (decode name position schema raw record desk).desk = desk ∨
      (decode name position schema raw record desk).desk = (desk.decoder schema.carrier).2 := by
  unfold decode
  split
  · exact .inl rfl
  · exact .inl rfl
  · dsimp only
    split
    · unfold decodeBlob
      split
      · exact .inl rfl
      · split
        · rename_i hd
          exact .inr (congrArg Prod.snd hd).symm
        · rename_i hd
          exact .inr (congrArg Prod.snd hd).symm
    · exact .inl rfl

theorem encode_extends (name : String) (schema : Schema) (value : Datum) (desk : Desk) :
    (encode name schema value desk).2.Extends desk := by
  rcases desk_encode name schema value desk with h | h
  · rw [h]
    exact .refl desk
  · rw [h]
    exact Desk.decoder_extends desk schema.carrier

theorem encode_of_extends {left : Desk} (h : encode name schema value desk = (.ok stored, left))
    (hl : later.Extends left) :
    (encode name schema value later).1 = .ok stored := by
  have hs : (encode name schema value desk).1 = .ok stored := by rw [h]
  have hl : later.Extends (encode name schema value desk).2 := by rw [h]; exact hl
  clear h
  revert hs hl
  unfold encode
  split
  · exact fun h _ => h
  · dsimp only
    split
    · cases hd : desk.decoder schema.carrier with
      | mk result left =>
          cases result with
          | error e => exact fun h _ => by cases h
          | ok d =>
              intro h hl
              have hs : (later.decoder schema.carrier).1 = .ok d :=
                Desk.decoder_of_extends (by rw [hd]) (by rw [hd]; exact hl)
              cases hk : later.decoder schema.carrier with
              | mk result latest =>
                  rw [hk] at hs
                  subst hs
                  exact h
    · exact fun h _ => h

end Field

end Docket
