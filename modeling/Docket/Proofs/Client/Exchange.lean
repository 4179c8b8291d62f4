import Docket.Client.Script
import Docket.Proofs.Client.Turns

/-!
# Calls with their answers

A conversation that was led to its end leaves a list of exchanges: each call it
made, with the answer that it got.
-/
namespace Docket

structure Exchange where
  call : Call
  reply : call.Reply

namespace Exchange

/-- Whether the call was refused because a revision is not the current one. -/
def isConflict (x : Exchange) : Bool :=
  match x.reply with
  | .error e => e.isConflict
  | .ok _ => false

def isPut (x : Exchange) : Bool :=
  x.call.kind = .put

/-- The identifier that something was written under. -/
def written? : Exchange → Option String
  | ⟨.put document, .ok _⟩ => document.id?
  | ⟨.delete id _, .ok _⟩ => some id
  | _ => none

/-- The document that was fetched, with its identifier. -/
def fetched? : Exchange → Option (String × Document)
  | ⟨.get id, .ok (some document)⟩ => some (id, document)
  | _ => none

theorem fetched?_eq_some {x : Exchange} {id : String} {document : Document} (h : x.fetched? = some (id, document)) :
    x = ⟨.get id, .ok (some document)⟩ := by
  unfold fetched? at h
  split at h
  · cases h
    rfl
  · cases h

end Exchange

namespace Dialogue

variable {σ α : Type} (client : Client σ)

/-- The calls of a dialogue in order, each with its answer. -/
def exchanges : Dialogue α → σ → List Exchange
  | done _, _ => []
  | ask call resume, state =>
      let (reply, state) := client.answer state call
      ⟨call, reply⟩ :: (resume reply).exchanges state

theorem map_call_exchanges (d : Dialogue α) (state : σ) :
    (d.exchanges client state).map Exchange.call = d.calls client state := by
  induction d generalizing state with
  | done result => rfl
  | ask call resume ih => exact congrArg (call :: ·) (ih _ _)

variable (call : Call) (resume : call.Reply → Dialogue α) (state : σ)

theorem run_ask : (ask call resume).run client state =
    (resume (client.answer state call).1).run client (client.answer state call).2 := rfl

theorem exchanges_ask : (ask call resume).exchanges client state =
    ⟨call, (client.answer state call).1⟩ ::
      (resume (client.answer state call).1).exchanges client (client.answer state call).2 := rfl

theorem exchanges_bind {β : Type} (d : Dialogue α) (next : α → Dialogue β) (state : σ) :
    (d.bind next).exchanges client state =
      d.exchanges client state ++ (next (d.run client state).1).exchanges client (d.run client state).2 := by
  induction d generalizing state with
  | done result => rfl
  | ask call resume ih => exact congrArg (_ :: ·) (ih _ _)

/-- Whoever answers the calls, what was exchanged goes with the result. -/
def Ends (d : Dialogue α) (P : List Exchange → α → Prop) : Prop :=
  ∀ (σ : Type) (client : Client σ) (state : σ), P (d.exchanges client state) (d.run client state).1

section

variable {β : Type} {P : List Exchange → α → Prop} {Q : List Exchange → β → Prop}

theorem ends_done {result : α} (h : P [] result) : (done result).Ends P :=
  fun _ _ _ => h

theorem ends_ask {call : Call} {resume : call.Reply → Dialogue α}
    (h : ∀ reply, (resume reply).Ends fun xs result => P (⟨call, reply⟩ :: xs) result) : (ask call resume).Ends P :=
  fun σ client state => h _ σ client (client.answer state call).2

theorem Ends.map {d : Dialogue α} {f : α → β} (h : d.Ends fun xs result => Q xs (f result)) : (d.map f).Ends Q := by
  intro σ client state
  rw [Dialogue.map, exchanges_bind, run_bind, exchanges, List.append_nil]
  exact h σ client state

theorem Ends.mono {P' : List Exchange → α → Prop} {d : Dialogue α} (h : d.Ends P')
    (hp : ∀ xs result, P' xs result → P xs result) : d.Ends P :=
  fun σ client state => hp _ _ (h σ client state)

end

end Dialogue

end Docket
