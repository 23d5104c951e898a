import Pointwise.Named

/-!
# Names in documents

A document is a tree of texts, lists and objects, as far as names are concerned. A name stands in it
as a text, or as the only key of an object whose content is null.

* `Named.toNode`, `Named.read`   writing and reading a name;
* `readField?`, `required`       reading the fields of an object;
* `readItem`                     reading the items of a list;
* `ReadError.message?`           the wording of a refusal, where it has one.
-/

namespace Pointwise

/-- What stands at one place of a document. -/
inductive Node
  | null
  | text (s : String)
  | list (items : List Node)
  | object (fields : List (String × Node))
  /-- a number or a truth value -/
  | other
  deriving Inhabited

/-- Why a node could not be read. -/
inductive ReadError
  | missingField (name : String)
  | unknownVariant (found : String) (expected : List String)
  /-- a node of another sort than was asked for, or a list of another length -/
  | wrongShape
  deriving DecidableEq, Repr

def quoteName (s : String) : String := "`" ++ s ++ "`"

/-- The wording of a refusal. A wrong shape is worded by whoever parsed the document. -/
def ReadError.message? : ReadError → Option String
  | missingField name => some ("missing field " ++ quoteName name)
  | unknownVariant found expected =>
    some ("unknown variant " ++ quoteName found ++ ", expected one of "
      ++ ", ".intercalate (expected.map quoteName))
  | wrongShape => none

namespace Named
variable {α : Type} [Named α]

/-- The node that holds a name. -/
def toNode (a : α) : Node := .text (tag a)

/-- The value with the given name, or the list of the names that there are. -/
def ofText (s : String) : Except ReadError α :=
  match ofTag? s with
  | some a => .ok a
  | none => .error (.unknownVariant s (tags α))

/-- The value whose name stands at a node. -/
def read : Node → Except ReadError α
  | .text s => ofText s
  | .object [(s, .null)] => ofText s
  | .object [(s, _)] => (ofText s : Except ReadError α).bind fun _ => .error .wrongShape
  | _ => .error .wrongShape

end Named

section
variable {α : Type} [Named α]

/-- The name in a field, if the field is there. -/
def readField? (fields : List (String × Node)) (key : String) : Except ReadError (Option α) :=
  match fields.lookup key with
  | some node => (Named.read node).map some
  | none => .ok none

/-- The value whose name is an item of a list that must be long enough. -/
def readItem (items : List Node) (i : Nat) : Except ReadError α :=
  match items[i]? with
  | some node => Named.read node
  | none => .error .wrongShape

/-- The content of a field that must be there. -/
def required (key : String) : Option α → Except ReadError α
  | some a => .ok a
  | none => .error (.missingField key)

end

end Pointwise
