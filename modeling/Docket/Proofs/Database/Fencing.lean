import Docket.Client.Script
import Docket.Proofs.Database.Writes

/-!
# Revisions fence off writes

Every write of an identifier raises its generation by one and leaves an entry
whose revision spells that generation. A request that names a revision is let
through only while this revision stands, so of all requests that name one
revision at most one writes: when a second one comes, the generation has moved
on, and no later revision can be the one it names.

The digest in a revision is not used here. Equal bodies have equal digests, and
it is the generation in front of the digest that tells revisions apart.
-/
namespace Docket

/-- The identifier that a call asks to write under, and the revision it names. -/
def Call.write? : Call → Option (String × Option String)
  | .put document => document.id?.map fun id => (id, document.rev?)
  | .delete id rev => some (id, some rev)
  | _ => none

namespace Database

/-- The revision that a call is answered with, if it writes. -/
def granted? (db : Database) : Call → Option String
  | .put document => (db.put document).1.toOption
  | .delete id rev => (db.delete id rev).1.toOption
  | _ => none

/-- The database after the first calls of a run, as many as given. -/
def afterFirst (db : Database) (calls : List Call) (count : Nat) : Database :=
  (calls.take count).foldl (fun db call => (db.answer call).2) db

variable {db : Database} {call : Call} {id rev : String} {document : Document}

theorem afterFirst_succ {calls : List Call} {i : Nat} (h : calls[i]? = some call) :
    db.afterFirst calls (i + 1) = ((db.afterFirst calls i).answer call).2 := by
  have hl : i < calls.length := (List.getElem?_eq_some_iff.1 h).1
  have hc : calls[i] = call := (List.getElem?_eq_some_iff.1 h).2
  rw [afterFirst, List.take_succ_eq_append_getElem hl, List.foldl_append, hc]
  rfl

/-- A run that is over stays where it is. -/
theorem afterFirst_succ_of_none {calls : List Call} {i : Nat} (h : calls[i]? = none) :
    db.afterFirst calls (i + 1) = db.afterFirst calls i := by
  have hl : calls.length ≤ i := List.getElem?_eq_none_iff.1 h
  rw [afterFirst, afterFirst, List.take_of_length_le hl, List.take_of_length_le (Nat.le_succ_of_le hl)]

/-! ### One call -/

/-- A document that names a revision and is let through meets the entry that stands
under this revision. -/
theorem rev_of_nextGeneration? {entry : Option Entry} {n : Nat}
    (h : nextGeneration? entry (some rev) = some n) : ∃ e, entry = some e ∧ e.rev = rev := by
  cases entry with
  | none => simp [nextGeneration?] at h
  | some e =>
      refine ⟨e, rfl, ?_⟩
      by_cases heq : e.rev = rev
      · exact heq
      · have hne : ¬rev = e.rev := fun h => heq h.symm
        simp [nextGeneration?, hne] at h

theorem rev_of_put {r : String} {later : Database} (hi : document.id? = some id) (hr : document.rev? = some r)
    (h : db.put document = (.ok rev, later)) : ∃ entry, db.entries.find? id = some entry ∧ entry.rev = r := by
  simp only [put, hi, hr] at h
  split at h
  · cases h
  · split at h
    · cases h
    · rename_i n hn
      exact rev_of_nextGeneration? hn

/-- What a granted write does: it puts an entry of the next generation, whose
revision is the answer, where the revision it names stood until then. -/
structure Writes (db : Database) (call : Call) (id : String) (named : Option String) (rev : String)
    (later : Database) : Prop where
  standing : ∀ r, named = some r → ∃ entry, db.entries.find? id = some entry ∧ entry.rev = r
  body : ∃ body, rev = db.nextRevision id body ∧ later = db.written id body

theorem writes_of_granted {named : Option String} (hw : call.write? = some (id, named))
    (hg : db.granted? call = some rev) : Writes db call id named rev (db.answer call).2 := by
  cases call with
  | put document =>
      have ha : (db.put document).1.toOption = some rev := hg
      have hd : document.id? = some id ∧ document.rev? = named := by
        simp only [Call.write?, Option.map_eq_some_iff, Prod.mk.injEq] at hw
        obtain ⟨_, hi, rfl, hn⟩ := hw
        exact ⟨hi, hn⟩
      obtain ⟨e, he⟩ | ⟨_, hi, hput⟩ := put_cases db document
      · rw [he] at ha
        cases ha
      · cases hd.1.symm.trans hi
        refine ⟨?_, some document, ?_, congrArg Prod.snd hput⟩
        · intro r hr
          exact rev_of_put hd.1 (hd.2.trans hr) hput
        · rw [hput] at ha
          exact (Option.some.inj ha).symm
  | delete target r =>
      have ha : (db.delete target r).1.toOption = some rev := hg
      cases hw
      obtain ⟨e, he, -⟩ | ⟨entry, stale, hf, -, hr, hdel⟩ := delete_cases db id r
      · rw [he] at ha
        cases ha
      · refine ⟨?_, none, ?_, congrArg Prod.snd hdel⟩
        · intro _ h
          cases h
          exact ⟨entry, hf, hr⟩
        · rw [hdel] at ha
          exact (Option.some.inj ha).symm
  | _ => cases hw

/-- Calls that are not granted a write leave a present database as it is, unless
they drop it. -/
theorem answer_of_not_granted (hp : db.present = true) (hk : call.kind ≠ .drop)
    (hg : db.granted? call = none) : (db.answer call).2 = db := by
  cases call with
  | put document =>
      obtain ⟨e, he⟩ | ⟨_, -, hput⟩ := put_cases db document
      · simp only [answer, he]
      · have ha : (db.put document).1.toOption = none := hg
        rw [hput] at ha
        cases ha
  | delete target r =>
      obtain ⟨e, he, -⟩ | ⟨_, _, -, -, -, hdel⟩ := delete_cases db target r
      · simp only [answer, he]
      · have ha : (db.delete target r).1.toOption = none := hg
        rw [hdel] at ha
        cases ha
  | create => simp only [answer, hp, if_true]
  | drop => exact absurd rfl hk
  | _ => rfl

/-- A write that is granted is a write under some identifier. -/
theorem write?_of_granted (hg : db.granted? call = some rev) : ∃ id named, call.write? = some (id, named) := by
  cases call with
  | put document =>
      obtain ⟨e, he⟩ | ⟨id, hi, -⟩ := put_cases db document
      · have ha : (db.put document).1.toOption = some rev := hg
        rw [he] at ha
        cases ha
      · exact ⟨id, document.rev?, by simp [Call.write?, hi]⟩
  | delete target r => exact ⟨target, some r, rfl⟩
  | _ => cases hg

/-- A failed call leaves the database as it is. -/
theorem answer_of_error {e : StoreError} (h : (db.answer call).1 = .error e) : (db.answer call).2 = db := by
  cases call with
  | put document =>
      obtain ⟨e, he⟩ | ⟨_, -, hput⟩ := put_cases db document
      · simp only [answer, he]
      · simp only [answer, hput] at h
        cases h
  | delete target r =>
      obtain ⟨e, he, -⟩ | ⟨_, _, -, -, -, hdel⟩ := delete_cases db target r
      · simp only [answer, he]
      · simp only [answer, hdel] at h
        cases h
  | create =>
      unfold answer at h ⊢
      dsimp only at h ⊢
      split
      · rfl
      · rename_i hp
        rw [if_neg hp] at h
        cases h
  | drop =>
      unfold answer at h ⊢
      dsimp only at h ⊢
      split
      · rename_i hp
        rw [if_pos hp] at h
        cases h
      · rfl
  | _ => rfl

/-- A call other than a drop writes under one identifier, as it asks to, or changes
nothing. -/
theorem answer_cases (hp : db.present = true) (hk : call.kind ≠ .drop) :
    (db.answer call).2 = db ∨ ∃ id body, (db.answer call).2 = db.written id body := by
  cases hg : db.granted? call with
  | none => exact .inl (answer_of_not_granted hp hk hg)
  | some rev =>
      obtain ⟨id, named, hw⟩ := write?_of_granted hg
      obtain ⟨body, -, hb⟩ := (writes_of_granted hw hg).body
      exact .inr ⟨id, body, hb⟩

theorem generation_written_of_ne {other : String} {body : Option Document} (h : other ≠ id) :
    (db.written id body).generation other = db.generation other := by
  rw [generation, generation, find?_written_of_ne h]

theorem generation_le_answer (hp : db.present = true) (hk : call.kind ≠ .drop) (id : String) :
    db.generation id ≤ (db.answer call).2.generation id := by
  rcases answer_cases hp hk with h | ⟨target, body, h⟩
  · exact Nat.le_of_eq (by rw [h])
  · rw [h]
    by_cases ht : id = target
    · subst ht
      rw [generation_written_self]
      omega
    · exact Nat.le_of_eq (generation_written_of_ne ht).symm

theorem present_answer (hp : db.present = true) (hk : call.kind ≠ .drop) :
    (db.answer call).2.present = true := by
  rcases answer_cases hp hk with h | ⟨target, body, h⟩
  · rw [h, hp]
  · rw [h, present_written, hp]

/-! ### Whole runs -/

variable {before : Database} {calls : List Call}

/-- What every call keeps, whatever was called before: the database is sound and
present. -/
theorem sound_afterFirst (hs : before.Sound) (hp : before.present = true)
    (hk : ∀ call ∈ calls, call.kind ≠ .drop) (i : Nat) :
    (before.afterFirst calls i).Sound ∧ (before.afterFirst calls i).present = true := by
  induction i with
  | zero => exact ⟨hs, hp⟩
  | succ i ih =>
      obtain ⟨hs', hp'⟩ := ih
      cases hc : calls[i]? with
      | none =>
          rw [afterFirst_succ_of_none hc]
          exact ⟨hs', hp'⟩
      | some call =>
          rw [afterFirst_succ hc]
          exact ⟨hs'.answer call, present_answer hp' (hk call (List.mem_of_getElem? hc))⟩

/-- No generation ever goes down. -/
theorem generation_le_afterFirst (hs : before.Sound) (hp : before.present = true)
    (hk : ∀ call ∈ calls, call.kind ≠ .drop) {i j : Nat} (hij : i ≤ j) (id : String) :
    (before.afterFirst calls i).generation id ≤ (before.afterFirst calls j).generation id := by
  induction hij with
  | refl => exact Nat.le_refl _
  | @step j _ ih =>
      cases hc : calls[j]? with
      | none => rwa [afterFirst_succ_of_none hc]
      | some call =>
          have hp' := (sound_afterFirst hs hp hk j).2
          have hstep := generation_le_answer hp' (hk call (List.mem_of_getElem? hc)) id
          rw [afterFirst_succ hc]
          exact Nat.le_trans ih hstep

/-- The `i`-th call of a run writes under the identifier, naming a revision or none,
and is answered with a revision. -/
structure WritesAt (before : Database) (calls : List Call) (i : Nat) (id : String) (named : Option String)
    (rev : String) : Prop where
  asks : (calls[i]?).bind Call.write? = some (id, named)
  granted : (calls[i]?).bind (before.afterFirst calls i).granted? = some rev

variable {i j : Nat} {named : Option String}

theorem WritesAt.writes (h : WritesAt before calls i id named rev) :
    ∃ call, calls[i]? = some call ∧
      Writes (before.afterFirst calls i) call id named rev (before.afterFirst calls (i + 1)) := by
  obtain ⟨call, hc, hw⟩ := Option.bind_eq_some_iff.1 h.asks
  have hg := h.granted
  rw [hc, Option.bind_some] at hg
  exact ⟨call, hc, afterFirst_succ hc ▸ writes_of_granted hw hg⟩

/-- After the write, the identifier stands one generation higher, under the
revision of the answer. -/
theorem WritesAt.raises (h : WritesAt before calls i id named rev) :
    (before.afterFirst calls (i + 1)).generation id = (before.afterFirst calls i).generation id + 1 ∧
      (∃ entry, (before.afterFirst calls (i + 1)).entries.find? id = some entry ∧ entry.rev = rev) ∧
      ∀ other, other ≠ id → (before.afterFirst calls (i + 1)).entries.find? other =
        (before.afterFirst calls i).entries.find? other := by
  obtain ⟨_, -, hw⟩ := h.writes
  obtain ⟨body, hr, hb⟩ := hw.body
  rw [hb]
  exact ⟨generation_written_self, ⟨_, find?_written_self, hr.symm⟩, fun other ho => find?_written_of_ne ho⟩

/-- The revision of the answer spells the generation that the write reached. -/
theorem WritesAt.rev_eq (h : WritesAt before calls i id named rev) :
    ∃ body, rev = revision ((before.afterFirst calls i).generation id + 1) id body := by
  obtain ⟨_, -, hw⟩ := h.writes
  obtain ⟨body, hr, -⟩ := hw.body
  exact ⟨body, hr⟩

theorem WritesAt.generation_lt (hs : before.Sound) (hp : before.present = true)
    (hk : ∀ call ∈ calls, call.kind ≠ .drop) (h : WritesAt before calls i id named rev) (hij : i < j) :
    (before.afterFirst calls i).generation id < (before.afterFirst calls j).generation id := by
  have hstep := h.raises.1
  have hle := generation_le_afterFirst hs hp hk (show i + 1 ≤ j from hij) id
  omega

/-- Two answers for one identifier have different revisions. -/
theorem rev_ne_of_lt (hs : before.Sound) (hp : before.present = true)
    (hk : ∀ call ∈ calls, call.kind ≠ .drop) (hij : i < j) {earlier later : Option String} {first second : String}
    (hi : WritesAt before calls i id earlier first) (hj : WritesAt before calls j id later second) :
    first ≠ second := by
  intro heq
  obtain ⟨body, hfirst⟩ := hi.rev_eq
  obtain ⟨other, hsecond⟩ := hj.rev_eq
  rw [hfirst, hsecond] at heq
  have hgen := generation_eq_of_revision_eq heq
  have hlt := hi.generation_lt hs hp hk hij
  omega

/-- A revision that was named by a write that went through is past for good. -/
theorem not_named_twice (hs : before.Sound) (hp : before.present = true)
    (hk : ∀ call ∈ calls, call.kind ≠ .drop) (hij : i < j) {r first second : String}
    (hi : WritesAt before calls i id (some r) first) (hj : WritesAt before calls j id (some r) second) : False := by
  have hsound : ∀ n, (before.afterFirst calls n).Sound := fun n => (sound_afterFirst hs hp hk n).1
  obtain ⟨_, -, hwi⟩ := hi.writes
  obtain ⟨_, -, hwj⟩ := hj.writes
  obtain ⟨e, hfe, hre⟩ := hwi.standing r rfl
  obtain ⟨f, hff, hrf⟩ := hwj.standing r rfl
  -- both entries stand under `r`, so the generation cannot have moved between them
  have hgen : e.generation = f.generation :=
    generation_eq_of_rev_eq (hsound i id e hfe) (hsound j id f hff) (hre.trans hrf.symm)
  have hlt := hi.generation_lt hs hp hk hij
  rw [generation_of_find? hfe, generation_of_find? hff] at hlt
  omega

/-- What revisions guarantee over a run of calls. -/
structure Fenced (before : Database) (calls : List Call) : Prop where
  /-- At any time, a live document names its identifier and the revision it stands under. -/
  named : ∀ i id entry document, (before.afterFirst calls i).entries.find? id = some entry →
    entry.document = some document →
    document.find? Document.idField = some (.string id) ∧
      document.find? Document.revField = some (.string entry.rev)
  /-- A write moves its identifier on by one generation, and no other identifier. -/
  raised : ∀ i id named rev, WritesAt before calls i id named rev →
    (before.afterFirst calls (i + 1)).generation id = (before.afterFirst calls i).generation id + 1 ∧
      (∃ entry, (before.afterFirst calls (i + 1)).entries.find? id = some entry ∧ entry.rev = rev) ∧
      ∀ other, other ≠ id → (before.afterFirst calls (i + 1)).entries.find? other =
        (before.afterFirst calls i).entries.find? other
  /-- No revision is given out twice for an identifier. -/
  fresh : ∀ i j id earlier later first second, i < j → WritesAt before calls i id earlier first →
    WritesAt before calls j id later second → first ≠ second
  /-- What is refused changes nothing. -/
  refused : ∀ i call e, calls[i]? = some call → ((before.afterFirst calls i).answer call).1 = .error e →
    before.afterFirst calls (i + 1) = before.afterFirst calls i
  /-- Of the requests that name one revision of an identifier, at most one writes. -/
  once : ∀ i j id rev first second, WritesAt before calls i id (some rev) first →
    WritesAt before calls j id (some rev) second → i = j

theorem fenced_of_reachable (hr : before.Reachable) (hp : before.present = true)
    (hk : ∀ call ∈ calls, call.kind ≠ .drop) : Fenced before calls where
  named i id entry document hf hd := by
    have he := (sound_afterFirst hr.sound hp hk i).1 id entry hf
    exact ⟨he.id document hd, he.named document hd⟩
  raised i id named rev h := h.raises
  fresh i j id earlier later first second hij hi hj := rev_ne_of_lt hr.sound hp hk hij hi hj
  refused i call e hc he := by rw [afterFirst_succ hc, answer_of_error he]
  once i j id rev first second hi hj := by
    rcases Nat.lt_trichotomy i j with hij | hij | hij
    · exact (not_named_twice hr.sound hp hk hij hi hj).elim
    · exact hij
    · exact (not_named_twice hr.sound hp hk hij hj hi).elim

/-- A document is put, deleted at the revision that the put is answered with,
deleted again at that revision, and put again. -/
def putAndDelete (db : Database) (id : String) (document : Document) : List Call :=
  let rev := db.nextRevision id (some document)
  [.put document, .delete id rev, .delete id rev, .put document]

/-- The first of the two deletions goes through. -/
theorem writesAt_putAndDelete (hp : db.present = true) (hi : document.id? = some id)
    (hr : document.rev? = none) (hl : db.live? id = none) :
    WritesAt db (db.putAndDelete id document) 1 id (some (db.nextRevision id (some document)))
      ((db.written id (some document)).nextRevision id none) where
  asks := rfl
  granted := by
    have hput : db.put document = (.ok (db.nextRevision id (some document)), db.written id (some document)) :=
      put_of_not_live hp hi hr hl
    have hfirst : db.afterFirst (db.putAndDelete id document) 1 = db.written id (some document) :=
      congrArg Prod.snd hput
    have hpresent : (db.written id (some document)).present = true := hp
    have hstands : (db.written id (some document)).entries.find? id = some (db.nextEntry id (some document)) :=
      find?_written_self
    have hlive : (db.nextEntry id (some document)).document =
        some (document.insert Document.revField (.string (db.nextRevision id (some document)))) := rfl
    have hrev : (db.nextEntry id (some document)).rev = db.nextRevision id (some document) := rfl
    have hdel := delete_of_rev hpresent hstands hlive hrev
    rw [hfirst]
    exact congrArg (fun reply => reply.1.toOption) hdel

def note : Document :=
  .ofList [("_id", .string "n"), ("text", .string "a")]

theorem fenced_note :
    let calls := (new "notes").putAndDelete "n" note
    let rev := (new "notes").nextRevision "n" (some note)
    (∀ call ∈ calls, call.kind ≠ .drop) ∧ Fenced (new "notes") calls ∧
      (∃ answer, WritesAt (new "notes") calls 1 "n" (some rev) answer) ∧
      ¬∃ answer, WritesAt (new "notes") calls 2 "n" (some rev) answer := by
  intro calls rev
  have hk : ∀ call ∈ calls, call.kind ≠ .drop := by simp [calls, putAndDelete, Call.kind]
  have hf : Fenced (new "notes") calls := fenced_of_reachable (.new "notes") rfl hk
  have hi : note.id? = some "n" := rfl
  have hr : note.rev? = none := rfl
  have hl : (new "notes").live? "n" = none := rfl
  have hw := writesAt_putAndDelete (show (new "notes").present = true from rfl) hi hr hl
  refine ⟨hk, hf, ⟨_, hw⟩, ?_⟩
  rintro ⟨second, hs⟩
  exact absurd (hf.once 1 2 "n" rev _ second hw hs) (by decide)

end Database

end Docket
