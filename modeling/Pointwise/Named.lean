/-!
# Types whose values have names

A few small types of this library are spelled out in text: kinds, operations, families and
availabilities. `Named` lists the values of such a type in order and names each of them, and
`Named.ofName?` reads a name back. In documents a value is spelled by its identifier in the casing
of its type.

* `Casing.apply`   an identifier in a casing;
* `Named.names`, `Named.ofName?`   the names;
* `Named.tags`, `Named.ofTag?`   the spellings in documents.
-/

namespace Pointwise

/-- How an identifier such as `NotImplemented` is spelled in documents. -/
inductive Casing
  /-- in lower case -/
  | lower
  /-- in lower case, with an underscore between words -/
  | snake
  deriving DecidableEq, Repr

namespace Casing

/-- Letters in lower case, with an underscore before each word that a capital begins. -/
def separate : List Char → List Char
  | [] => []
  | c :: cs =>
    if c.isUpper then '_' :: c.toLower :: separate cs else c.toLower :: separate cs

def apply : Casing → String → String
  | lower, s => .ofList (s.toList.map Char.toLower)
  | snake, s =>
    match s.toList with
    | [] => ""
    | c :: cs => .ofList (c.toLower :: separate cs)

end Casing

/-- A type with finitely many values, each with its own name, listed in a fixed order. -/
class Named (α : Type) where
  all : List α
  name : α → String
  /-- the spelling in documents -/
  tag : α → String

namespace Named
variable {α : Type} [Named α]

def names (α : Type) [Named α] : List String := (all : List α).map name

def ofName? (s : String) : Option α := (all : List α).find? fun a => name a == s

theorem name_of_ofName? {s : String} {a : α} (h : ofName? s = some a) : name a = s := by
  simpa using List.find?_some h

/-- Every spelling of the type in documents, in order. -/
def tags (α : Type) [Named α] : List String := (all : List α).map tag

/-- The value with the given spelling in documents. -/
def ofTag? (s : String) : Option α := (all : List α).find? fun a => tag a == s

end Named

end Pointwise
