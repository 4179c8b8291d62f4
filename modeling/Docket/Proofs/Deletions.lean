import Docket.Proofs.Actors
import Docket.Proofs.Client.Moves
import Docket.Proofs.Commit.Alone
import Docket.Proofs.Database.Standing

/-!
# Deletions are of what was fetched

Any number of actors take turns at one database. While nobody writes the identifier
between the two calls in which a coordinator fetches and deletes a document, the
version that was fetched stands, and it is what the deletion ends. Once somebody
has, this version is past, even if its like has been stored again, and the deletion
is refused.
-/
namespace Docket

/-! ### What became of a document since it was fetched -/

section

variable {ι : Type}

/-- The last move of a party was to fetch a document; since then others have moved. -/
structure LastFetched (ms : List (Move ι Database)) (i : ι) (id : String) (stale : Document)
    (since : List (Move ι Database)) : Prop where
  fetched : ∃ first fetch, ms = first ++ fetch :: since ∧ fetch.party = i ∧
    fetch.exchange = ⟨.get id, .ok (some stale)⟩
  others : ∀ m ∈ since, m.party ≠ i

/-- Nobody has written the identifier and the version stands, or somebody has and it
is past. -/
def Settled (db : Database) (id : String) (stale : Document) (rev : String) (since : List (Move ι Database)) :
    Prop :=
  ((∀ m ∈ since, m.exchange.written? ≠ some id) ∧ db.Standing id stale rev) ∨
    ((∃ m ∈ since, m.exchange.written? = some id) ∧ db.Past id rev)

/-- What comes of a deletion of a fetched document, by what was written since. -/
structure DeletesFetched (since : List (Move ι Database)) (before after : Database) (id : String)
    (stale : Document) (reply : Except StoreError String) : Prop where
  /-- If it goes through, it ends what was fetched. -/
  ends : ∀ token, reply = .ok token → before.live? id = some stale ∧ after.live? id = none
  granted : (∀ m ∈ since, m.exchange.written? ≠ some id) → ∃ token, reply = .ok token
  refused : (∃ m ∈ since, m.exchange.written? = some id) →
    (reply = .error (.conflict id) ∨ reply = .error (.notFound id)) ∧ after = before

/-- Wherever a coordinator deletes in a log, its move before was to fetch what it deletes. -/
def FencesDeletions (coordinates : ι → Bool) (ms : List (Move ι Database)) : Prop :=
  ∀ earlier m later id rev reply, ms = earlier ++ m :: later → coordinates m.party = true →
    m.exchange = ⟨.delete id rev, reply⟩ → ∃ stale since, LastFetched earlier m.party id stale since ∧
      stale.rev? = some rev ∧ DeletesFetched since m.before m.after id stale reply

variable {db : Database} {id rev : String} {stale : Document} {ms since : List (Move ι Database)} {i : ι}

/-- A move of another party. -/
theorem LastFetched.append (h : LastFetched ms i id stale since) {m : Move ι Database} (hm : m.party ≠ i) :
    LastFetched (ms ++ [m]) i id stale (since ++ [m]) where
  fetched := by
    obtain ⟨first, fetch, hms, hf⟩ := h.fetched
    refine ⟨first, fetch, ?_, hf⟩
    rw [hms, List.append_assoc]
    rfl
  others x hx := by
    rcases List.mem_append.1 hx with hx | hx
    · exact h.others x hx
    · rw [List.mem_singleton.1 hx]
      exact hm

theorem Settled.append {call : Call} (h : Settled db id stale rev since) (hs : db.Sound)
    (hp : db.present = true) (hk : call.kind ≠ .drop) (party : ι) :
    Settled (db.answer call).2 id stale rev (since ++ [Database.client.move party db call]) := by
  rcases h with ⟨hnone, hstands⟩ | ⟨⟨x, hx, hw⟩, hpast⟩
  · -- the move may be the first one that writes
    by_cases hw : (Database.client.move party db call).exchange.written? = some id
    · refine .inr ⟨⟨_, List.mem_append_right since List.mem_cons_self, hw⟩, ?_⟩
      exact hstands.past hs hp hk hw
    · refine .inl ⟨fun x hx => ?_, hstands.answer hp hk hw⟩
      rcases List.mem_append.1 hx with hx | hx
      · exact hnone x hx
      · rw [List.mem_singleton.1 hx]
        exact hw
  · exact .inr ⟨⟨x, List.mem_append_left _ hx, hw⟩, hpast.answer hp hk⟩

theorem Settled.deletes (h : Settled db id stale rev since) (hs : db.Sound) (hp : db.present = true) :
    DeletesFetched since db (db.delete id rev).2 id stale (db.delete id rev).1 := by
  rcases h with ⟨hnone, hstands⟩ | ⟨⟨x, hx, hw⟩, hpast⟩
  · obtain ⟨hl, hd⟩ := hstands.delete hp
    rw [hd]
    refine ⟨fun _ _ => ⟨hl, Database.live?_written_self⟩, fun _ => ⟨_, rfl⟩, ?_⟩
    rintro ⟨x, hx, hw⟩
    exact absurd hw (hnone x hx)
  · obtain ⟨e, hd, he⟩ := hpast.delete hs hp
    rw [hd]
    refine ⟨fun _ ht => (by cases ht), fun hnone => absurd hw (hnone x hx), fun _ => ⟨?_, rfl⟩⟩
    exact he.imp (congrArg Except.error) (congrArg Except.error)

end

/-! ### The turns of the actors -/

section

variable {ι : Type} {actor : ι → Actor}

/-- A coordinator makes careful calls; what its last call has fetched stands in the
log, and is settled by what came after. -/
def Remembers (db : Database) (ms : List (Move ι Database)) (i : ι) (d : Dialogue Unit) : Prop :=
  ∃ fetched, d.Abides Rule.careful fetched ∧ ∀ id stale, fetched = some (id, stale) →
    ∃ since, LastFetched ms i id stale since ∧ ∀ rev, stale.rev? = some rev → Settled db id stale rev since

/-- What holds of the actors and of the log of their moves, after every turn. -/
structure Watched (actor : ι → Actor) (p : Parties ι Database Unit) (ms : List (Move ι Database)) : Prop where
  sound : p.state.Sound
  present : p.state.present = true
  sparing : ∀ i, ∃ fetched, (p.dialogue i).Abides Rule.sparing fetched
  remembers : ∀ i, (actor i).coordinates = true → Remembers p.state ms i (p.dialogue i)

theorem watched_gather {db : Database} (hs : db.Sound) (hp : db.present = true)
    (hk : ∀ i call, actor i = .calls call → call.kind ≠ .drop) : Watched actor (Actor.gather actor db) [] where
  sound := hs
  present := hp
  sparing i := ⟨none, Actor.sparing_dialogue (hk i) none⟩
  remembers i hc := ⟨none, Actor.careful_dialogue hc none, fun _ _ h => by cases h⟩

variable {db : Database} {ms : List (Move ι Database)} {i : ι} {call : Call} {resume : call.Reply → Dialogue Unit}

/-- What the coordinator remembers after its own call. -/
theorem Remembers.own (h : Remembers db ms i (.ask call resume)) (hs : db.Sound) (hp : db.present = true) :
    Remembers (db.answer call).2 (ms ++ [Database.client.move i db call]) i (resume (db.answer call).1) := by
  obtain ⟨_, ha, -⟩ := h
  refine ⟨_, ha.2 (db.answer call).1, fun id stale hf => ?_⟩
  have hx := Exchange.fetched?_eq_some hf
  refine ⟨[], ⟨⟨ms, _, rfl, rfl, hx⟩, fun _ hm => absurd hm List.not_mem_nil⟩, fun rev hr => ?_⟩
  obtain rfl : call = .get id := congrArg Exchange.call hx
  have hl : db.live? id = some stale := by
    have hg : db.answer (.get id) = (.ok (db.live? id), db) := Database.answer_get hp
    rw [hg] at hx
    exact Except.ok.inj (eq_of_heq (Exchange.mk.inj hx).2)
  exact .inl ⟨fun _ hm => absurd hm List.not_mem_nil, Database.standing_of_live hs hl hr⟩

/-- What a coordinator remembers after another's call. -/
theorem Remembers.other {d : Dialogue Unit} (h : Remembers db ms i d) (hs : db.Sound) (hp : db.present = true)
    (hk : call.kind ≠ .drop) {party : ι} (hn : party ≠ i) :
    Remembers (db.answer call).2 (ms ++ [Database.client.move party db call]) i d := by
  obtain ⟨fetched, ha, hf⟩ := h
  refine ⟨fetched, ha, fun id stale hfetched => ?_⟩
  obtain ⟨since, hlast, hsettled⟩ := hf id stale hfetched
  exact ⟨_, hlast.append hn, fun rev hr => (hsettled rev hr).append hs hp hk party⟩

theorem watched_turn [DecidableEq ι] {p : Parties ι Database Unit} (h : Watched actor p ms) (i : ι) :
    Watched actor (p.turn Database.client i) (ms ++ (p.move? Database.client i).toList) := by
  cases hd : p.dialogue i with
  | done result => rwa [Parties.turn_of_done hd, Parties.move?_of_done hd, Option.toList_none, List.append_nil]
  | ask call resume =>
      have hk : call.kind ≠ .drop := by
        obtain ⟨_, ha⟩ := h.sparing i
        rw [hd] at ha
        exact ha.1
      have hstate : (p.turn Database.client i).state = (p.state.answer call).2 := by
        rw [Parties.state_turn, hd]
        rfl
      have hown : (p.turn Database.client i).dialogue i = resume (p.state.answer call).1 := by
        rw [Parties.dialogue_turn_self, hd]
        rfl
      rw [Parties.move?_of_ask hd]
      refine { sound := ?sound, present := ?present, sparing := fun j => ?sparing,
               remembers := fun j hc => ?remembers }
      case sound =>
        rw [hstate]
        exact h.sound.answer call
      case present =>
        rw [hstate]
        exact Database.present_answer h.present hk
      case sparing =>
        by_cases hj : j = i
        · obtain ⟨_, ha⟩ := h.sparing i
          rw [hd] at ha
          rw [hj, hown]
          exact ⟨_, ha.2 _⟩
        · rw [Parties.dialogue_turn_of_ne Database.client p hj]
          exact h.sparing j
      case remembers =>
        rw [hstate]
        by_cases hj : j = i
        · subst hj
          have hr := h.remembers j hc
          rw [hd] at hr
          rw [hown]
          exact hr.own h.sound h.present
        · rw [Parties.dialogue_turn_of_ne Database.client p hj]
          exact (h.remembers j hc).other h.sound h.present hk fun heq => hj heq.symm

/-- However commits, removals and single calls take turns, a coordinator's deletion ends
exactly what the coordinator has fetched, and is refused once this was overwritten. -/
theorem deletions_fenced [DecidableEq ι] (hr : db.Reachable) (hp : db.present = true)
    (hk : ∀ i call, actor i = .calls call → call.kind ≠ .drop) (order : List ι) :
    FencesDeletions (fun i => (actor i).coordinates) ((Actor.gather actor db).moves Database.client order) := by
  intro earlier m later id rev reply hm hc hx
  -- the turns before the deletion have left the log before it
  obtain ⟨former, i, _, -, hbefore, hmove⟩ := Parties.turn_of_moves hm
  have hw : Watched actor ((Actor.gather actor db).play Database.client former) earlier := by
    rw [← hbefore]
    exact Parties.moves_induction (I := Watched actor) (fun _ _ i h => watched_turn h i)
      (watched_gather hr.sound hp hk) former
  obtain ⟨call, resume, hd, rfl⟩ := Parties.move?_eq_some hmove
  obtain rfl : call = .delete id rev := congrArg Exchange.call hx
  obtain ⟨fetched, ha, hf⟩ := hw.remembers i hc
  rw [hd] at ha
  -- a careful deletion is of what is remembered
  obtain ⟨stale, rfl, hrev⟩ := ha.1
  obtain ⟨since, hlast, hsettled⟩ := hf id stale rfl
  refine ⟨stale, since, hlast, hrev, ?_⟩
  obtain rfl := eq_of_heq (Exchange.mk.inj hx).2
  exact (hsettled rev hrev).deletes hw.sound hw.present

end

/-- One removes the user, one commits over it, and the others store it as it was. -/
def rivals : Nat → Actor
  | 0 => .removes "u1" (.opened .info)
  | 1 => .commits Commit.renamedUser "u1" 1 (.opened .info)
  | _ => .calls (.put Commit.userDocument)

/-- The commit deletes the user and the same user is stored again, after the removal has
fetched it and before it deletes it. -/
def restoration : List Nat := [0, 1, 1, 1, 2, 1, 0]

theorem deletions_fenced_restoration :
    let ms := (Actor.gather rivals Commit.userDatabase).moves Database.client restoration
    (∀ i call, rivals i = .calls call → call.kind ≠ .drop) ∧
      FencesDeletions (fun i => (rivals i).coordinates) ms ∧
      ms.map (fun m => (m.party, m.exchange.call.kind, m.exchange.isConflict)) =
        [(0, .get, false), (1, .put, true), (1, .get, false), (1, .delete, false), (2, .put, false),
          (1, .put, true), (0, .delete, true)] := by
  intro ms
  have hk : ∀ i call, rivals i = .calls call → call.kind ≠ .drop := by
    intro i call h
    unfold rivals at h
    split at h
    · cases h
    · cases h
    · cases h
      decide
  refine ⟨hk, deletions_fenced Commit.reachable_userDatabase rfl hk restoration, ?_⟩
  decide +kernel

end Docket
