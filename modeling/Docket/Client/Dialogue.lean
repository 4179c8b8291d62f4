import Docket.Document
import Docket.StoreError

/-!
# Conversations with a database

A database is reached by calls, each with its own kind of answer or an error. A
dialogue is a conversation written down in advance: it is finished, or it makes a
call and goes on with whatever is answered. Running a dialogue against a client
answers its calls in order; the calls of several dialogues can also be answered in
turns, since a dialogue that waits for an answer is a value.
-/
namespace Docket

/-- A request to a database. A scan may be limited to its first rows, a probe asks
whether the database exists. -/
inductive Call where
  | get (id : String)
  | put (document : Document)
  | delete (id rev : String)
  | scan (limit : Option Nat)
  | probe
  | create
  | drop
  | flush

structure Row where
  id : String
  document : Option Document

/-- What a call is answered with when it succeeds: a put with the new revision,
a delete with the revision of the deletion. -/
def Call.Answer : Call → Type
  | get _ => Option Document
  | put _ => String
  | delete _ _ => String
  | scan _ => List Row
  | probe => Bool
  | create => Unit
  | drop => Unit
  | flush => Unit

abbrev Call.Reply (call : Call) : Type := Except StoreError call.Answer

/-- A conversation that ends with a result. -/
inductive Dialogue (α : Type) where
  | done (result : α)
  | ask (call : Call) (resume : call.Reply → Dialogue α)

namespace Dialogue

variable {α β : Type}

def bind : Dialogue α → (α → Dialogue β) → Dialogue β
  | done result, next => next result
  | ask call resume, next => ask call fun reply => (resume reply).bind next

instance : Monad Dialogue where
  pure := done
  bind := bind

def send (call : Call) : Dialogue call.Reply :=
  ask call done

@[simp] theorem bind_done (result : α) (next : α → Dialogue β) : (done result).bind next = next result := rfl

@[simp] theorem bind_ask (call : Call) (resume : call.Reply → Dialogue α) (next : α → Dialogue β) :
    (ask call resume).bind next = ask call fun reply => (resume reply).bind next := rfl

end Dialogue

/-- Something that answers calls and changes by them. -/
structure Client (σ : Type) where
  answer : σ → (call : Call) → call.Reply × σ

/-- Answers every call of a dialogue in order. -/
def Dialogue.run {σ α : Type} (client : Client σ) : Dialogue α → σ → α × σ
  | done result, state => (result, state)
  | ask call resume, state =>
      let (reply, state) := client.answer state call
      (resume reply).run client state

def Dialogue.calls {σ α : Type} (client : Client σ) : Dialogue α → σ → List Call
  | done _, _ => []
  | ask call resume, state =>
      let (reply, state) := client.answer state call
      call :: (resume reply).calls client state

end Docket
