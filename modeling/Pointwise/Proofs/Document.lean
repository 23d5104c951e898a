import Mathlib.Data.List.Nodup
import Pointwise.Document
import Pointwise.Kind
import Pointwise.Promotion.Table

/-!
# Names read from documents

The spelling of a value in documents is its name, whatever casing it comes from.  A name is read back
where it stands as a text or as the only key of an object with nothing under it; anything else is
refused, with the names that there are if it holds another one.

* `LawfulNamed`   types whose names are distinct and are the spellings in documents;
* `Named.ofName?_eq_some_iff`   a name belongs to one value;
* `Node.Spells`, `Named.read_of_spells`   the nodes that are read;
* `Node.Refused`, `Named.read_of_refused`   all others, with their errors.
-/

namespace Pointwise

/-! ## names and spellings -/

/-- Every value is listed, no two have one name, and documents spell them by their names. -/
class LawfulNamed (α : Type) [Named α] : Prop where
  mem_all : ∀ a : α, a ∈ (Named.all : List α)
  nodup_names : (Named.names α).Nodup
  tag_eq_name : ∀ a : α, Named.tag a = Named.name a

instance : LawfulNamed Kind where
  mem_all k := by
    rw [← Kind.ofIndex_index k]
    exact Vector.mem_toList_iff.mpr (Vector.getElem_mem _)
  nodup_names := by decide
  tag_eq_name k := by
    rcases k with (_ | _ | _ | _) | (_ | _ | _ | _) | (_ | _ | _) | (_ | _ | _) | _ <;> rfl

instance : LawfulNamed Family where
  mem_all f := by cases f <;> decide
  nodup_names := by decide
  tag_eq_name f := by cases f <;> rfl

instance : LawfulNamed Operation where
  mem_all := Operation.mem_all
  nodup_names := by decide
  tag_eq_name op := by cases op <;> rfl

instance : LawfulNamed Availability where
  mem_all a := by cases a <;> decide
  nodup_names := by decide
  tag_eq_name _ := rfl

namespace Named
variable {α : Type} [Named α] [LawfulNamed α] {a : α} {s : String}

theorem ofName?_name (a : α) : ofName? (name a) = some a := by
  obtain ⟨b, hb⟩ : ∃ b : α, ofName? (name a) = some b := by
    rw [← Option.isSome_iff_exists]
    exact List.find?_isSome.mpr ⟨a, LawfulNamed.mem_all a, beq_self_eq_true _⟩
  have same := List.inj_on_of_nodup_map LawfulNamed.nodup_names (LawfulNamed.mem_all b)
    (LawfulNamed.mem_all a) (name_of_ofName? hb)
  rw [hb, same]

theorem ofName?_eq_some_iff : ofName? s = some a ↔ name a = s := by
  constructor
  · exact name_of_ofName?
  · rintro rfl
    exact ofName?_name a

theorem mem_names_iff : s ∈ names α ↔ ∃ a : α, name a = s := by
  constructor
  · intro hs
    obtain ⟨a, -, ha⟩ := List.mem_map.mp hs
    exact ⟨a, ha⟩
  · rintro ⟨a, rfl⟩
    exact List.mem_map_of_mem (LawfulNamed.mem_all a)

theorem tags_eq : tags α = names α :=
  List.map_congr_left fun a _ => LawfulNamed.tag_eq_name a

theorem ofTag?_eq (s : String) : (ofTag? s : Option α) = ofName? s :=
  congrArg (List.find? · all) (funext fun a => by rw [LawfulNamed.tag_eq_name])

theorem ofText_name (a : α) : ofText (name a) = .ok a := by
  unfold ofText
  rw [ofTag?_eq, ofName?_name]

theorem ofText_of_not_mem (hs : s ∉ names α) :
    (ofText s : Except ReadError α) = .error (.unknownVariant s (names α)) := by
  have absent : (ofName? s : Option α) = none := by
    refine Option.eq_none_iff_forall_ne_some.mpr fun a ha => hs ?_
    exact mem_names_iff.mpr ⟨a, name_of_ofName? ha⟩
  unfold ofText
  rw [ofTag?_eq, absent, tags_eq]

end Named

/-! ## nodes -/

namespace Node

inductive Holds (s : String) : Node → Prop
  | text : Holds s (.text s)
  | key (content : Node) : Holds s (.object [(s, content)])

/-- A name stands at the node, with nothing under it if it is a key. -/
inductive Spells (s : String) : Node → Prop
  | text : Spells s (.text s)
  | key : Spells s (.object [(s, .null)])

/-- The error for a node that spells none of the names. -/
inductive Refused (names : List String) (node : Node) : ReadError → Prop
  | unknown {s} (holds : Holds s node) (unknown : s ∉ names) :
    Refused names node (.unknownVariant s names)
  | content {s} (holds : Holds s node) (known : s ∈ names) (more : ¬ Spells s node) :
    Refused names node .wrongShape
  | shape (none : ∀ s, ¬ Holds s node) : Refused names node .wrongShape

theorem spells_or_refused (names : List String) (node : Node) :
    (∃ s ∈ names, Spells s node) ∨ ∃ e, Refused names node e := by
  by_cases h : ∃ s, Holds s node
  · obtain ⟨s, hs⟩ := h
    by_cases known : s ∈ names
    · by_cases spells : Spells s node
      · exact .inl ⟨s, known, spells⟩
      · exact .inr ⟨_, .content hs known spells⟩
    · exact .inr ⟨_, .unknown hs known⟩
  · exact .inr ⟨_, .shape (not_exists.mp h)⟩

end Node

namespace Named
variable {α : Type} [Named α] {a : α} {node : Node} {e : ReadError}

theorem read_of_shape (none : ∀ s, ¬ node.Holds s) :
    (read node : Except ReadError α) = .error .wrongShape := by
  cases node with
  | null => rfl
  | text s => exact absurd .text (none s)
  | list items => rfl
  | object fields =>
    cases fields with
    | nil => rfl
    | cons field fields =>
      cases fields with
      | nil => exact absurd (.key field.2) (none field.1)
      | cons =>
        obtain ⟨s, content⟩ := field
        cases content <;> rfl
  | other => rfl

variable [LawfulNamed α]

theorem spells_toNode (a : α) : (toNode a).Spells (name a) := by
  unfold toNode
  rw [LawfulNamed.tag_eq_name]
  exact .text

theorem read_of_spells (h : node.Spells (name a)) : read node = .ok a := by
  cases h with
  | text => exact ofText_name a
  | key => exact ofText_name a

theorem read_of_unknown {s : String} (holds : node.Holds s) (unknown : s ∉ names α) :
    (read node : Except ReadError α) = .error (.unknownVariant s (names α)) := by
  have text := ofText_of_not_mem unknown
  cases holds with
  | text => exact text
  | key content =>
    cases content with
    | null => exact text
    | _ => exact congrArg (Except.bind · fun _ => .error .wrongShape) text

theorem read_of_content {s : String} (holds : node.Holds s) (known : s ∈ names α)
    (more : ¬ node.Spells s) : (read node : Except ReadError α) = .error .wrongShape := by
  obtain ⟨a, rfl⟩ := mem_names_iff.mp known
  cases holds with
  | text => exact absurd .text more
  | key content =>
    cases content with
    | null => exact absurd .key more
    | _ => exact congrArg (Except.bind · fun _ => .error .wrongShape) (ofText_name a)

theorem read_of_refused (h : node.Refused (names α) e) :
    (read node : Except ReadError α) = .error e := by
  cases h with
  | unknown holds unknown => exact read_of_unknown holds unknown
  | content holds known more => exact read_of_content holds known more
  | shape none => exact read_of_shape none

end Named

/-! ## items of a list -/

section
variable {α : Type} [Named α] {items : List Node} {node : Node} {i : Nat}

theorem readItem_of_getElem? (here : items[i]? = some node) :
    (readItem items i : Except ReadError α) = Named.read node := by
  unfold readItem
  rw [here]

theorem readItem_of_le (short : items.length ≤ i) :
    (readItem items i : Except ReadError α) = .error .wrongShape := by
  unfold readItem
  rw [List.getElem?_eq_none short]

end

end Pointwise
