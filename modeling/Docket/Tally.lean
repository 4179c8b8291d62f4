import Docket.Json.Printer

/-!
# Counters of a store's work
-/
namespace Docket

inductive Counter where
  | recordsRead | readsMissing | decodeFailures
  | writes | putsSkipped | conflicts | conflictsRecovered
  | deletes | queriesExecuted
  deriving DecidableEq, Repr

namespace Counter

/-- Every counter, in the order in which counts are reported. -/
def all : List Counter :=
  [recordsRead, readsMissing, decodeFailures, writes, putsSkipped, conflicts, conflictsRecovered,
   deletes, queriesExecuted]

def name : Counter → String
  | recordsRead => "records_read"
  | readsMissing => "reads_missing"
  | decodeFailures => "decode_failures"
  | writes => "writes"
  | putsSkipped => "puts_skipped"
  | conflicts => "conflicts"
  | conflictsRecovered => "conflicts_recovered"
  | deletes => "deletes"
  | queriesExecuted => "queries_executed"

end Counter

structure Tally where
  count : Counter → Nat

namespace Tally

def zero : Tally := ⟨fun _ => 0⟩

instance : Inhabited Tally := ⟨zero⟩

def tick (t : Tally) (counter : Counter) : Tally :=
  ⟨fun c => if c = counter then t.count c + 1 else t.count c⟩

theorem count_tick (t : Tally) (ticked counter : Counter) :
    (t.tick ticked).count counter = t.count counter + if counter = ticked then 1 else 0 := by
  by_cases same : counter = ticked <;> simp [tick, same]

/-- The counts in the order of `Counter.all`. -/
def counts (t : Tally) : List Nat :=
  Counter.all.map t.count

def toJson (t : Tally) : Json :=
  .object (Counter.all.map fun c => (c.name, .ofNat (t.count c)))

end Tally

end Docket
