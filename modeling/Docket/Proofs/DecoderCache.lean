import Docket.Proofs.Schema.Canonical
import Docket.Proofs.Schema.Defaults
import Docket.Proofs.Cache
import Docket.Proofs.Keyed

/-!
# The decoder cache does not show

A request that finds a decoder in the cache skips the check of its schema and is
handed a decoder of another schema, one with the same canonical form. As neither
the check nor the decoder's work depends on more than that form, every request is
answered as if its decoder were built for it alone. What does tell is who shares a
decoder, and the counts say how many there are.
-/
namespace Docket

namespace Decoder

/-- The decoders bring every value into the same blob, and read every blob over
every old value alike. -/
structure Alike (d e : Decoder) : Prop where
  encode : ∀ value, d.encode value = e.encode value
  decode : ∀ bytes old, d.decode bytes old = e.decode bytes old

theorem alike_of_withoutDefaults_eq {d e : Decoder} (h : d.schema.withoutDefaults = e.schema.withoutDefaults) :
    d.Alike e := by
  constructor
  · intro value
    have he : Blob.encode d.schema.withoutDefaults value = Blob.encode e.schema.withoutDefaults value := by rw [h]
    simpa [Schema.withoutDefaults, Decoder.encode] using he
  · intro bytes old
    have hd : Blob.decode d.schema.withoutDefaults bytes old = Blob.decode e.schema.withoutDefaults bytes old := by
      rw [h]
    simpa [Schema.withoutDefaults, Decoder.decode] using hd

theorem eq_of_build {s : Schema} {number : Nat} {d : Decoder} (h : build s number = .ok d) : d = ⟨s, number⟩ := by
  unfold build at h
  split at h
  · split at h
    · exact (Except.ok.inj h).symm
    · cases h
  · cases h

/-- What a decoder cannot be built for is told by the schema up to defaults. -/
theorem build_cases {a b : Schema} (h : a.withoutDefaults = b.withoutDefaults) (m n : Nat) :
    (build a m = .ok ⟨a, m⟩ ∧ build b n = .ok ⟨b, n⟩) ∨
      ∃ e, build a m = .error e ∧ build b n = .error e := by
  have hk : a.kind = b.kind := by
    have hk : a.withoutDefaults.kind = b.withoutDefaults.kind := by rw [h]
    simpa [Schema.withoutDefaults] using hk
  have hc : a.check = b.check := by
    have hc : a.withoutDefaults.check = b.withoutDefaults.check := by rw [h]
    simpa [Schema.withoutDefaults] using hc
  unfold build
  rw [hk, hc]
  split
  · cases b.check with
    | ok _ => exact .inl ⟨rfl, rfl⟩
    | error e => exact .inr ⟨_, rfl, rfl⟩
  · exact .inr ⟨_, rfl, rfl⟩

end Decoder

/-! ### One request -/

/-- Every decoder was built and is filed under its own form; decoders are counted,
and the count of those before a decoder tells it from all others. -/
structure DecoderCache.Coherent (c : DecoderCache) : Prop where
  form : ∀ {form d}, c.decoders.find? form = some d → d.canonicalForm = form
  built : ∀ {form d}, c.decoders.find? form = some d → Decoder.build d.schema d.number = .ok d
  number_lt : ∀ {form d}, c.decoders.find? form = some d → d.number < c.builds
  apart : ∀ {form other d e}, c.decoders.find? form = some d → c.decoders.find? other = some e →
    d.number = e.number → form = other
  counted : c.size = c.builds

theorem DecoderCache.coherent_empty : (∅ : DecoderCache).Coherent where
  form h := by cases h
  built h := by cases h
  number_lt h := by cases h
  apart h := by cases h
  counted := rfl

namespace Desk

variable {desk : Desk} {schema : Schema}

/-- A new decoder among those of a coherent cache. -/
theorem coherent_insert {c : DecoderCache} {d : Decoder} (hc : c.Coherent)
    (hn : c.decoders.find? schema.canonicalForm = none) (hb : Decoder.build schema c.builds = .ok d) :
    DecoderCache.Coherent ⟨c.decoders.insert schema.canonicalForm d, c.hits, c.builds + 1⟩ := by
  have hd := Decoder.eq_of_build hb
  have found {form : String} {e : Decoder}
      (hf : (c.decoders.insert schema.canonicalForm d).find? form = some e) :
      (form = schema.canonicalForm ∧ e = d) ∨ c.decoders.find? form = some e := by
    by_cases h : form = schema.canonicalForm
    · rw [h, Keyed.find?_insert_self] at hf
      exact .inl ⟨h, (Option.some.inj hf).symm⟩
    · rw [Keyed.find?_insert_of_ne _ h] at hf
      exact .inr hf
  constructor
  case form =>
    intro form e hf
    rcases found hf with ⟨rfl, rfl⟩ | hf
    · rw [hd, Decoder.canonicalForm]
    · exact hc.form hf
  case built =>
    intro form e hf
    rcases found hf with ⟨rfl, rfl⟩ | hf
    · rw [hd] at hb ⊢
      exact hb
    · exact hc.built hf
  case number_lt =>
    intro form e hf
    rcases found hf with ⟨rfl, rfl⟩ | hf
    · rw [hd]
      exact Nat.lt_succ_self _
    · exact Nat.lt_succ_of_lt (hc.number_lt hf)
  case apart =>
    intro form other e e' hf ho he
    have hnumber : d.number = c.builds := by rw [hd]
    rcases found hf with ⟨hform, hsame⟩ | hf <;> rcases found ho with ⟨hother, hsame'⟩ | ho
    · rw [hform, hother]
    · have hlt := hc.number_lt ho
      rw [hsame] at he
      omega
    · have hlt := hc.number_lt hf
      rw [hsame'] at he
      omega
    · exact hc.apart hf ho he
  case counted =>
    have hs := Keyed.size_insert hn d
    exact hs.trans (congrArg (· + 1) hc.counted)

theorem coherent_decoder (hc : desk.cache.Coherent) (schema : Schema) :
    (desk.decoder schema).2.cache.Coherent := by
  obtain ⟨d, _, _, hl⟩ | ⟨d, hn, hb, _, hl⟩ | ⟨e, _, _, hd⟩ := decoder_outcome desk schema
  · rw [hl]
    exact ⟨hc.form, hc.built, hc.number_lt, hc.apart, hc.counted⟩
  · rw [hl]
    exact coherent_insert hc hn hb
  · rw [hd]
    exact hc

/-- A request is answered like a build of its own: with a decoder that works alike,
kept under the form asked for, or with the build's refusal and an unchanged desk. -/
theorem decoder_transparent (hc : desk.cache.Coherent) (schema : Schema) :
    (∃ d, (desk.decoder schema).1 = .ok d ∧ Decoder.build schema 0 = .ok ⟨schema, 0⟩ ∧
        d.Alike ⟨schema, 0⟩ ∧ (desk.decoder schema).2.cache.decoders.find? schema.canonicalForm = some d) ∨
      ∃ e, desk.decoder schema = (.error e, desk) ∧ Decoder.build schema 0 = .error e := by
  obtain ⟨d, hf, hd, hl⟩ | ⟨d, _, hb, hd, hl⟩ | ⟨e, _, hb, hd⟩ := decoder_outcome desk schema
  · have hs : d.schema.withoutDefaults = schema.withoutDefaults :=
      Schema.withoutDefaults_eq_of_canonicalForm_eq (hc.form hf)
    obtain ⟨_, hfresh⟩ | ⟨e, hb, _⟩ := Decoder.build_cases hs d.number 0
    · refine .inl ⟨d, hd, hfresh, Decoder.alike_of_withoutDefaults_eq hs, ?_⟩
      rw [hl]
      exact hf
    · rw [hc.built hf] at hb
      cases hb
  · have hs := Decoder.eq_of_build hb
    obtain ⟨_, hfresh⟩ | ⟨e, hb', _⟩ := Decoder.build_cases (Eq.refl schema.withoutDefaults) desk.cache.builds 0
    · refine .inl ⟨d, hd, hfresh, Decoder.alike_of_withoutDefaults_eq (by rw [hs]), ?_⟩
      rw [hl]
      exact Keyed.find?_insert_self _ _ _
    · rw [hb] at hb'
      cases hb'
  · obtain ⟨hb', _⟩ | ⟨e', hb', hfresh⟩ :=
      Decoder.build_cases (Eq.refl schema.withoutDefaults) desk.cache.builds 0
    · rw [hb] at hb'
      cases hb'
    · rw [hb] at hb'
      rw [← Except.error.inj hb'] at hfresh
      exact .inr ⟨e, hd, hfresh⟩

end Desk

/-! ### Requests one after another -/

/-- A request for a decoder, made at a desk. -/
structure Request where
  desk : Desk
  schema : Schema

namespace Request

def answer (r : Request) : Except ValueError Decoder :=
  (r.desk.decoder r.schema).1

/-- The desk that the request leaves behind. -/
def left (r : Request) : Desk :=
  (r.desk.decoder r.schema).2

def granted (r : Request) : Bool :=
  r.answer.toBool

theorem granted_iff {r : Request} : r.granted = true ↔ ∃ d, r.answer = .ok d := by
  cases h : r.answer <;> simp [granted, h, Except.toBool]

end Request

namespace Desk

/-- Requests for decoders of the schemas, each made at the desk that the one before
it left behind. -/
def requests (desk : Desk) : List Schema → List Request
  | [] => []
  | schema :: rest => ⟨desk, schema⟩ :: requests (desk.decoder schema).2 rest

/-- The desk that the last of the requests leaves behind. -/
def afterRequests (desk : Desk) (schemas : List Schema) : Desk :=
  schemas.foldl (fun desk schema => (desk.decoder schema).2) desk

/-- What the cache tells about the requests made so far: it holds the decoders they
were handed and no others, and counts them. -/
structure Recorded (requests : List Request) (desk : Desk) : Prop where
  coherent : desk.cache.Coherent
  before : ∀ r ∈ requests, r.desk.cache.Coherent
  kept : ∀ r ∈ requests, ∀ d, r.answer = .ok d → desk.cache.decoders.find? r.schema.canonicalForm = some d
  asked : ∀ form, (desk.cache.decoders.find? form).isSome →
    ∃ r ∈ requests, r.granted ∧ r.schema.canonicalForm = form
  counted : desk.cache.hits + desk.cache.builds = requests.countP Request.granted

theorem recorded_nil {desk : Desk} (h : desk.cache = ∅) : Recorded [] desk where
  coherent := by
    rw [h]
    exact DecoderCache.coherent_empty
  before := by simp
  kept := by simp
  asked form hf := by
    rw [h] at hf
    cases hf
  counted := by
    rw [h]
    rfl

theorem recorded_decoder {requests : List Request} {desk : Desk} (h : Recorded requests desk) (schema : Schema) :
    Recorded (requests ++ [⟨desk, schema⟩]) (desk.decoder schema).2 where
  coherent := coherent_decoder h.coherent schema
  before := by
    intro r hr
    rcases List.mem_append.1 hr with hr | hr
    · exact h.before r hr
    · rw [List.mem_singleton.1 hr]
      exact h.coherent
  kept := by
    intro r hr d hd
    rcases List.mem_append.1 hr with hr | hr
    · exact decoder_extends desk schema _ d (h.kept r hr d hd)
    · rw [List.mem_singleton.1 hr] at hd ⊢
      obtain ⟨d', hd', _, _, hf⟩ | ⟨e, he, _⟩ := decoder_transparent h.coherent schema
      · rw [← Except.ok.inj (hd'.symm.trans hd)]
        exact hf
      · rw [Request.answer, he] at hd
        cases hd
  asked := by
    intro form hf
    obtain ⟨d, _, _, hl⟩ | ⟨d, _, _, hd, hl⟩ | ⟨e, _, _, he⟩ := decoder_outcome desk schema
    · rw [hl] at hf
      obtain ⟨r, hr, hg⟩ := h.asked form hf
      exact ⟨r, List.mem_append_left _ hr, hg⟩
    · rw [hl] at hf
      by_cases hform : form = schema.canonicalForm
      · exact ⟨⟨desk, schema⟩, by simp, Request.granted_iff.2 ⟨d, hd⟩, hform.symm⟩
      · rw [Keyed.find?_insert_of_ne _ hform] at hf
        obtain ⟨r, hr, hg⟩ := h.asked form hf
        exact ⟨r, List.mem_append_left _ hr, hg⟩
    · rw [he] at hf
      obtain ⟨r, hr, hg⟩ := h.asked form hf
      exact ⟨r, List.mem_append_left _ hr, hg⟩
  counted := by
    have hc := h.counted
    have hg {d : Decoder} (hd : (desk.decoder schema).1 = .ok d) : (⟨desk, schema⟩ : Request).granted = true :=
      Request.granted_iff.2 ⟨d, hd⟩
    rw [List.countP_append, List.countP_singleton]
    obtain ⟨d, _, hd, hl⟩ | ⟨d, _, _, hd, hl⟩ | ⟨e, _, _, he⟩ := decoder_outcome desk schema
    · rw [hl, if_pos (hg hd)]
      dsimp only
      omega
    · rw [hl, if_pos (hg hd)]
      dsimp only
      omega
    · have hr : ¬(⟨desk, schema⟩ : Request).granted = true := by
        rw [Request.granted, Request.answer, he]
        simp [Except.toBool]
      rw [he, if_neg hr]
      exact hc

theorem recorded_requests {before : List Request} {desk : Desk} (h : Recorded before desk) (schemas : List Schema) :
    Recorded (before ++ desk.requests schemas) (desk.afterRequests schemas) := by
  induction schemas generalizing before desk with
  | nil =>
      rw [requests, List.append_nil]
      exact h
  | cons schema rest ih =>
      have hr := ih (recorded_decoder h schema)
      rw [List.append_assoc] at hr
      exact hr

/-- That the requests went through a cache shows only in who shares a decoder. -/
structure Transparent (requests : List Request) (left : Desk) : Prop where
  /-- A request is refused exactly when a build of its own is, and for the same reason. -/
  refused : ∀ r ∈ requests, ∀ e, r.answer = .error e ↔ Decoder.build r.schema 0 = .error e
  /-- A refused request leaves everything as it was. -/
  unchanged : ∀ r ∈ requests, ∀ e, r.answer = .error e → r.left = r.desk
  /-- A granted request gets a decoder that works like one built for it alone. -/
  alike : ∀ r ∈ requests, ∀ d, r.answer = .ok d → ∃ own, Decoder.build r.schema 0 = .ok own ∧ d.Alike own
  /-- Two requests share a decoder exactly when their schemas agree up to defaults. -/
  shared : ∀ r ∈ requests, ∀ s ∈ requests, ∀ d e, r.answer = .ok d → s.answer = .ok e →
    (d.number = e.number ↔ r.schema.withoutDefaults = s.schema.withoutDefaults) ∧ (d.number = e.number → d = e)
  granted : left.cache.hits + left.cache.builds = requests.countP Request.granted
  size : left.cache.size = left.cache.builds
  /-- There are as many decoders as forms for which one was granted. -/
  forms : left.cache.builds =
    ((requests.filter Request.granted).map fun r => r.schema.canonicalForm).toFinset.card

theorem Recorded.transparent {requests : List Request} {desk : Desk} (h : Recorded requests desk) :
    Transparent requests desk where
  refused r hr e := by
    obtain ⟨d, hd, hb, _⟩ | ⟨e', he, hb⟩ := decoder_transparent (h.before r hr) r.schema
    · rw [Request.answer, hd, hb]
      simp
    · rw [Request.answer, he, hb]
  unchanged r hr e hr' := by
    obtain ⟨d, hd, _⟩ | ⟨e', he, _⟩ := decoder_transparent (h.before r hr) r.schema
    · rw [Request.answer, hd] at hr'
      cases hr'
    · rw [Request.left, he]
  alike r hr d hd := by
    obtain ⟨d', hd', hb, ha, _⟩ | ⟨e, he, _⟩ := decoder_transparent (h.before r hr) r.schema
    · rw [← Except.ok.inj (hd'.symm.trans hd)]
      exact ⟨_, hb, ha⟩
    · rw [Request.answer, he] at hd
      cases hd
  shared r hr s hs d e hd he := by
    have hdf := h.kept r hr d hd
    have hef := h.kept s hs e he
    have same : r.schema.canonicalForm = s.schema.canonicalForm → d = e := fun hform => by
      rw [hform, hef] at hdf
      exact (Option.some.inj hdf).symm
    refine ⟨⟨fun hn => ?_, fun ha => ?_⟩, fun hn => same (h.coherent.apart hdf hef hn)⟩
    · exact Schema.withoutDefaults_eq_of_canonicalForm_eq (h.coherent.apart hdf hef hn)
    · rw [same (Schema.canonicalForm_eq_of_withoutDefaults_eq ha)]
  granted := h.counted
  size := h.coherent.counted
  forms := by
    have hk : desk.cache.decoders.keys =
        ((requests.filter Request.granted).map fun r => r.schema.canonicalForm).toFinset := by
      ext form
      simp only [Keyed.mem_keys, List.mem_toFinset, List.mem_map, List.mem_filter]
      constructor
      · intro hf
        obtain ⟨r, hr, hg, hform⟩ := h.asked form hf
        exact ⟨r, ⟨hr, hg⟩, hform⟩
      · rintro ⟨r, ⟨hr, hg⟩, rfl⟩
        obtain ⟨d, hd⟩ := Request.granted_iff.1 hg
        rw [h.kept r hr d hd]
        rfl
    rw [← hk, Keyed.card_keys]
    exact h.coherent.counted.symm

/-- Any requests, made one after another of a cache that was empty before them, are
answered as if there were no cache, and the counts tell how many decoders were
handed out and how many there are. -/
theorem requests_transparent (journal : Journal) (tally : Tally) (schemas : List Schema) :
    Transparent ((⟨∅, journal, tally⟩ : Desk).requests schemas)
      ((⟨∅, journal, tally⟩ : Desk).afterRequests schemas) := by
  have h : Recorded [] (⟨∅, journal, tally⟩ : Desk) := recorded_nil rfl
  exact (recorded_requests h schemas).transparent

end Desk

end Docket
