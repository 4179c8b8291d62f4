import Docket.Schema.Basic

/-!
# Schemas inside schemas
-/
namespace Docket.Schema

/-- The first schema is the second one or stands inside it, at any depth. -/
inductive Within : Schema → Schema → Prop where
  | self (schema : Schema) : Within schema schema
  | items {part items : Schema} : Within part items → Within part (array items)
  | values {part values : Schema} : Within part values → Within part (map values)
  | field {part : Schema} {name : String} {field : Field} {fields : List Field} :
      field ∈ fields → Within part field.schema → Within part (record name fields)
  | branch {part branch : Schema} {branches : List Schema} :
      branch ∈ branches → Within part branch → Within part (union branches)

theorem Within.trans {a b c : Schema} (ab : a.Within b) (bc : b.Within c) : a.Within c := by
  induction bc with
  | self => exact ab
  | items _ ih => exact .items ih
  | values _ ih => exact .values ih
  | field member _ ih => exact .field member ih
  | branch member _ ih => exact .branch member ih

end Docket.Schema
