import Docket.Schema.Within

/-!
# The least width of a value

Every value of a schema takes up at least as many bytes as the schema's span.
The width that reading goes by is a word of 64 bits whose sums wrap, so the width
of a record whose fields are together wider than a word can count comes out too
small; where every sum fits, `Narrow`, width and span agree.
-/
namespace Docket.Schema

mutual

/-- The least number of bytes of a value. Whatever is not of fixed size begins
with at least one byte: a tag, a length, an ordinal, a branch or the end of a block. -/
def width : Schema → UInt64
  | null => 0
  | float => 4
  | double => 8
  | fixed _ size => size
  | record _ fields => fieldsWidth fields
  | _ => 1

def fieldsWidth : List Field → UInt64
  | [] => 0
  | ⟨_, schema, _⟩ :: rest => schema.width + fieldsWidth rest

end

/-- The least width of a map entry: the length of its key stands before the value. -/
def entryWidth (values : Schema) : UInt64 :=
  1 + values.width

mutual

/-- The least number of bytes of a value, as a number of any size. -/
def span : Schema → Nat
  | null => 0
  | float => 4
  | double => 8
  | fixed _ size => size.toNat
  | record _ fields => fieldsSpan fields
  | _ => 1

def fieldsSpan : List Field → Nat
  | [] => 0
  | ⟨_, schema, _⟩ :: rest => schema.span + fieldsSpan rest

end

/-- A word can count the span of every record in the schema, and of the entries
of every map. -/
def Narrow (s : Schema) : Prop :=
  (∀ name fields, (record name fields).Within s → fieldsSpan fields < 2 ^ 64) ∧
    ∀ values, (map values).Within s → 1 + values.span < 2 ^ 64

mutual

/-- The width is what a word keeps of the span. -/
theorem toNat_width : (s : Schema) → s.width.toNat = s.span % 2 ^ 64
  | .null | .float | .double => rfl
  | .boolean | .int | .long | .string | .bytes => rfl
  | .enum _ _ | .array _ | .map _ | .union _ => rfl
  | .fixed _ size => (Nat.mod_eq_of_lt size.toNat_lt).symm
  | .record _ fields => toNat_fieldsWidth fields

/-- Wrapping in between or at the end comes to the same. -/
theorem toNat_fieldsWidth : (fields : List Field) → (fieldsWidth fields).toNat = fieldsSpan fields % 2 ^ 64
  | [] => rfl
  | ⟨_, schema, _⟩ :: rest => by
      rw [fieldsWidth, fieldsSpan, UInt64.toNat_add, toNat_width schema, toNat_fieldsWidth rest]
      exact (Nat.add_mod _ _ _).symm

end

theorem toNat_entryWidth (values : Schema) : values.entryWidth.toNat = (1 + values.span) % 2 ^ 64 := by
  rw [entryWidth, UInt64.toNat_add, toNat_width]
  exact Nat.add_mod_mod 1 values.span (2 ^ 64)

theorem toNat_width_of_lt {s : Schema} (h : s.span < 2 ^ 64) : s.width.toNat = s.span := by
  rw [toNat_width, Nat.mod_eq_of_lt h]

theorem toNat_entryWidth_of_lt {values : Schema} (h : 1 + values.span < 2 ^ 64) :
    values.entryWidth.toNat = 1 + values.span := by
  rw [toNat_entryWidth, Nat.mod_eq_of_lt h]

end Docket.Schema
