import Pointwise.Document
import Pointwise.Promotion.Table

/-!
# Promotion entries in documents

An entry is written as an object with one name in each of six fields. Reading looks at the fields
that are there in the order of their keys and stops at the first bad one; then it asks for the
missing ones in the order in which `Entry` declares them. Other keys are ignored, and the entry need
not agree with the promotion table.

A list of six names is read as well. They stand in the order of declaration, and the first bad one
ends the reading; whether the list ends with them is looked at last.
-/

namespace Pointwise

namespace Entry

/-- The object that holds an entry. -/
def toNode (e : Entry) : Node :=
  .object [
    ("availability", Named.toNode e.availability),
    ("common", Named.toNode e.common),
    ("family", Named.toNode e.family),
    ("left", Named.toNode e.left),
    ("result", Named.toNode e.result),
    ("right", Named.toNode e.right)]

/-- The entry in the fields of an object. -/
def ofFields (fields : List (String × Node)) : Except ReadError Entry := do
  let availability? ← readField? fields "availability"
  let common? ← readField? fields "common"
  let family? ← readField? fields "family"
  let left? ← readField? fields "left"
  let result? ← readField? fields "result"
  let right? ← readField? fields "right"
  let family ← required "family" family?
  let left ← required "left" left?
  let right ← required "right" right?
  let common ← required "common" common?
  let result ← required "result" result?
  let availability ← required "availability" availability?
  return { family, left, right, common, result, availability }

/-- The entry in the first six items of a list. -/
def ofItems (items : List Node) : Except ReadError Entry := do
  let family ← readItem items 0
  let left ← readItem items 1
  let right ← readItem items 2
  let common ← readItem items 3
  let result ← readItem items 4
  let availability ← readItem items 5
  return { family, left, right, common, result, availability }

/-- The entry at a node. -/
def read : Node → Except ReadError Entry
  | .object fields => ofFields fields
  | .list items => do
    let e ← ofItems items
    if items.length = 6 then return e else .error .wrongShape
  | _ => .error .wrongShape

end Entry

end Pointwise
