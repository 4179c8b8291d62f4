import Docket.Client.Dialogue

/-!
# Conversations call by call

A conversation can be led one call at a time, so that several parties may talk to
one client in turns. What every call preserves holds when a conversation is over,
whether it was led alone or among others. What a conversation leaves may also be
known whoever answers its calls.
-/
namespace Docket

namespace Dialogue

variable {σ α β : Type}

/-- Makes the next call; a conversation that is over stays as it is. -/
def step (client : Client σ) : Dialogue α → σ → Dialogue α × σ
  | done result, state => (done result, state)
  | ask call resume, state =>
      let (reply, state) := client.answer state call
      (resume reply, state)

/-- What every call preserves holds at the end. -/
theorem run_induction (client : Client σ) {I : Dialogue α → σ → Prop}
    (hs : ∀ d state, I d state → I (d.step client state).1 (d.step client state).2)
    {d : Dialogue α} {state : σ} (h : I d state) :
    I (.done (d.run client state).1) (d.run client state).2 := by
  induction d generalizing state with
  | done result => exact h
  | ask call resume ih => exact ih _ (hs _ state h)

/-- The dialogue, of whose result only a part or an aspect is kept. -/
def map (f : α → β) (d : Dialogue α) : Dialogue β :=
  d.bind fun result => done (f result)

/-- Whoever answers the calls, the dialogue ends with a result of the property. -/
def Leaves (d : Dialogue α) (P : α → Prop) : Prop :=
  ∀ (σ : Type) (client : Client σ) (state : σ), P (d.run client state).1

variable {P : α → Prop} {Q : β → Prop}

theorem leaves_done {result : α} (h : P result) : (done result).Leaves P :=
  fun _ _ _ => h

theorem leaves_ask {call : Call} {resume : call.Reply → Dialogue α} (h : ∀ reply, (resume reply).Leaves P) :
    (ask call resume).Leaves P :=
  fun σ client state => h _ σ client (client.answer state call).2

theorem run_bind (client : Client σ) (d : Dialogue α) (next : α → Dialogue β) (state : σ) :
    (d.bind next).run client state = (next (d.run client state).1).run client (d.run client state).2 := by
  induction d generalizing state with
  | done result => rfl
  | ask call resume ih => exact ih _ _

theorem Leaves.bind {d : Dialogue α} {next : α → Dialogue β} (h : d.Leaves P)
    (hn : ∀ result, P result → (next result).Leaves Q) : (d.bind next).Leaves Q := by
  intro σ client state
  rw [run_bind]
  exact hn _ (h σ client state) σ client _

theorem Leaves.map {d : Dialogue α} {f : α → β} (h : d.Leaves fun result => Q (f result)) : (d.map f).Leaves Q :=
  h.bind fun _ hr => leaves_done hr

theorem Leaves.of_map {d : Dialogue α} {f : α → β} (h : (d.map f).Leaves Q) : d.Leaves fun result => Q (f result) := by
  intro σ client state
  have hq := h σ client state
  rw [Dialogue.map, run_bind] at hq
  exact hq

theorem map_map {γ : Type} (f : α → β) (g : β → γ) (d : Dialogue α) : (d.map f).map g = d.map fun x => g (f x) := by
  induction d with
  | done result => rfl
  | ask call resume ih => exact congrArg (ask call) (funext ih)

end Dialogue

/-- Parties, each with a conversation, and the state of the client they talk to. -/
structure Parties (ι σ α : Type) where
  dialogue : ι → Dialogue α
  state : σ

namespace Parties

variable {ι σ α : Type} [DecidableEq ι]

/-- Lets one party make its next call. -/
def turn (client : Client σ) (p : Parties ι σ α) (i : ι) : Parties ι σ α :=
  let (next, state) := (p.dialogue i).step client p.state
  ⟨fun j => if j = i then next else p.dialogue j, state⟩

/-- Lets the parties make their calls in an order. -/
def play (client : Client σ) (p : Parties ι σ α) (order : List ι) : Parties ι σ α :=
  order.foldl (turn client) p

variable (client : Client σ)

@[simp] theorem state_turn (p : Parties ι σ α) (i : ι) :
    (p.turn client i).state = ((p.dialogue i).step client p.state).2 := rfl

@[simp] theorem dialogue_turn_self (p : Parties ι σ α) (i : ι) :
    (p.turn client i).dialogue i = ((p.dialogue i).step client p.state).1 :=
  if_pos rfl

theorem dialogue_turn_of_ne (p : Parties ι σ α) {i j : ι} (h : j ≠ i) :
    (p.turn client i).dialogue j = p.dialogue j :=
  if_neg h

/-- What every turn preserves holds after any order of turns. -/
theorem play_induction {I : Parties ι σ α → Prop} (hs : ∀ p i, I p → I (p.turn client i))
    {p : Parties ι σ α} (h : I p) (order : List ι) : I (p.play client order) := by
  induction order generalizing p with
  | nil => exact h
  | cons i order ih => exact ih (hs p i h)

/-- A conversation that is over stays so, whoever goes on. -/
theorem dialogue_play_of_done {p : Parties ι σ α} {i : ι} {result : α} (h : p.dialogue i = .done result)
    (order : List ι) : (p.play client order).dialogue i = .done result := by
  refine play_induction client (I := fun p => p.dialogue i = .done result) (fun p j hp => ?_) h order
  by_cases hj : i = j
  · subst hj
    rw [dialogue_turn_self, hp]
    rfl
  · rw [dialogue_turn_of_ne client p hj]
    exact hp

end Parties

end Docket
