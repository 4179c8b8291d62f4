import Docket.Proofs.Client.Exchange
import Docket.Proofs.Client.Turns

/-!
# What parties have done in their turns

The turns of parties leave a log of moves: who made a call, what was called and
answered, and the state before and after it. A party whose conversation is over
makes no move.
-/
namespace Docket

structure Move (ι σ : Type) where
  party : ι
  before : σ
  exchange : Exchange
  after : σ

/-- The move of a party whose call is answered in a state. -/
def Client.move {ι σ : Type} (client : Client σ) (party : ι) (state : σ) (call : Call) : Move ι σ :=
  let (reply, after) := client.answer state call
  ⟨party, state, ⟨call, reply⟩, after⟩

namespace Parties

variable {ι σ α : Type} (client : Client σ)

/-- The move that a party makes when it has its turn. -/
def move? (p : Parties ι σ α) (i : ι) : Option (Move ι σ) :=
  match p.dialogue i with
  | .done _ => none
  | .ask call _ => some (client.move i p.state call)

variable {client} {p : Parties ι σ α} {i : ι}

/-- A party that has a call to make makes it. -/
theorem move?_eq_some {m : Move ι σ} (h : p.move? client i = some m) : ∃ call resume,
    p.dialogue i = .ask call resume ∧ m = client.move i p.state call := by
  unfold move? at h
  split at h
  · cases h
  · rename_i call resume hd
    exact ⟨call, resume, hd, (Option.some.inj h).symm⟩

theorem move?_of_done {result : α} (h : p.dialogue i = .done result) : p.move? client i = none := by
  rw [move?, h]

theorem move?_of_ask {call : Call} {resume : call.Reply → Dialogue α} (h : p.dialogue i = .ask call resume) :
    p.move? client i = some (client.move i p.state call) := by
  rw [move?, h]

variable (client) [DecidableEq ι]

/-- The moves that the parties make in an order of turns. -/
def moves : Parties ι σ α → List ι → List (Move ι σ)
  | _, [] => []
  | p, i :: order => (p.move? client i).toList ++ moves (p.turn client i) order

variable {client}

/-- A party whose conversation is over lets its turn pass. -/
theorem turn_of_done {result : α} (h : p.dialogue i = .done result) : p.turn client i = p := by
  unfold turn
  rw [h]
  refine congrArg (Parties.mk · p.state) (funext fun j => ?_)
  split
  · rename_i hj
    rw [hj, h]
  · rfl

/-- What every turn hands on to the next, with the log so far, holds after any order
of turns. -/
theorem moves_induction {I : Parties ι σ α → List (Move ι σ) → Prop}
    (hs : ∀ p ms i, I p ms → I (p.turn client i) (ms ++ (p.move? client i).toList))
    {ms : List (Move ι σ)} (h : I p ms) (order : List ι) :
    I (p.play client order) (ms ++ p.moves client order) := by
  induction order generalizing p ms with
  | nil => rwa [moves, List.append_nil]
  | cons i order ih =>
      rw [moves, ← List.append_assoc]
      exact ih (hs p ms i h)

/-- A move of the log was made in some turn, after the moves before it. -/
theorem turn_of_moves {order : List ι} {earlier later : List (Move ι σ)} {m : Move ι σ}
    (h : p.moves client order = earlier ++ m :: later) : ∃ former i latter, order = former ++ i :: latter ∧
      p.moves client former = earlier ∧ (p.play client former).move? client i = some m := by
  induction order generalizing p earlier with
  | nil => exact absurd h.symm (List.append_ne_nil_of_right_ne_nil earlier (List.cons_ne_nil m later))
  | cons i order ih =>
      rw [moves] at h
      cases hm : p.move? client i with
      | none =>
          rw [hm] at h
          obtain ⟨former, j, latter, rfl, hf, hj⟩ := ih h
          refine ⟨i :: former, j, latter, rfl, ?_, hj⟩
          rw [moves, hm]
          exact hf
      | some first =>
          rw [hm] at h
          cases earlier with
          | nil =>
              cases (List.cons.inj h).1
              exact ⟨[], i, order, rfl, rfl, hm⟩
          | cons head earlier =>
              obtain ⟨rfl, hrest⟩ := List.cons.inj h
              obtain ⟨former, j, latter, rfl, hf, hj⟩ := ih hrest
              refine ⟨i :: former, j, latter, rfl, ?_, hj⟩
              rw [moves, hm, hf]
              rfl

end Parties

end Docket
