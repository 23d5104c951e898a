import Mathlib.Order.WellFounded
import Pointwise.Promotion.Record
import Pointwise.Proofs.Document

/-!
# Entries read from documents

Two orders decide what is said of an object that is no entry: the values that are there are read in
the order of the bytes of their keys, and then the missing ones are asked for in the order of
declaration.  Each of the six fields is there with a good value, there with a bad one, or missing, and
nothing else of the object matters.  In a list only the order of declaration counts.

* `Entry.Field`, `Field.Value`   the fields of an entry and the types of their values;
* `Entry.Good`, `Bad`, `Missing`, `good_or_bad`   what the object says of a field;
* `Entry.assemble`   six outcomes in the order of declaration, up to the first error;
* `Entry.Reads`, `read_object_iff`   what is read from an object;
* `entry_of_object`   entries written and read;
* `Entry.ReadsItems`, `read_list_iff`   what is read from a list.
-/

namespace Pointwise

/-! ## steps that may fail -/

section
variable {ε α β : Type} {x : Except ε α}

theorem bind_of_ok {a : α} (h : x = .ok a) (next : α → Except ε β) : (x >>= next) = next a := by
  rw [h]
  rfl

theorem bind_of_error {e : ε} (h : x = .error e) (next : α → Except ε β) :
    (x >>= next) = .error e := by
  rw [h]
  rfl

end

namespace Entry

/-! ## fields -/

inductive Field
  | family | left | right | common | result | availability

namespace Field

def index : Field → Nat
  | family => 0
  | left => 1
  | right => 2
  | common => 3
  | result => 4
  | availability => 5

def key : Field → String
  | family => "family"
  | left => "left"
  | right => "right"
  | common => "common"
  | result => "result"
  | availability => "availability"

def bytes (f : Field) : List UInt8 := f.key.toByteArray.data.toList

/-- Position in the order of the bytes. -/
def rank : Field → Nat
  | availability => 0
  | common => 1
  | family => 2
  | left => 3
  | result => 4
  | right => 5

theorem rank_lt_iff (f g : Field) : f.rank < g.rank ↔ f.bytes < g.bytes := by
  cases f <;> cases g <;> decide

@[reducible]
def Value : Field → Type
  | family => Family
  | availability => Availability
  | _ => Kind

instance : (f : Field) → Named f.Value
  | family => inferInstanceAs (Named Family)
  | left => inferInstanceAs (Named Kind)
  | right => inferInstanceAs (Named Kind)
  | common => inferInstanceAs (Named Kind)
  | result => inferInstanceAs (Named Kind)
  | availability => inferInstanceAs (Named Availability)

instance : ∀ f : Field, LawfulNamed f.Value
  | family => inferInstanceAs (LawfulNamed Family)
  | left => inferInstanceAs (LawfulNamed Kind)
  | right => inferInstanceAs (LawfulNamed Kind)
  | common => inferInstanceAs (LawfulNamed Kind)
  | result => inferInstanceAs (LawfulNamed Kind)
  | availability => inferInstanceAs (LawfulNamed Availability)

def names (f : Field) : List String := Named.names f.Value

theorem spells_or_refused (f : Field) (node : Node) :
    (∃ a : f.Value, node.Spells (Named.name a)) ∨ ∃ e, node.Refused f.names e := by
  rcases Node.spells_or_refused f.names node with ⟨s, hs, spells⟩ | refused
  · obtain ⟨a, rfl⟩ := Named.mem_names_iff.mp hs
    exact .inl ⟨a, spells⟩
  · exact .inr refused

theorem index_lt (f : Field) : f.index < 6 := by
  cases f <;> decide

theorem exists_index : ∀ {n : Nat}, n < 6 → ∃ f : Field, f.index = n
  | 0, _ => ⟨family, rfl⟩
  | 1, _ => ⟨left, rfl⟩
  | 2, _ => ⟨right, rfl⟩
  | 3, _ => ⟨common, rfl⟩
  | 4, _ => ⟨result, rfl⟩
  | 5, _ => ⟨availability, rfl⟩

end Field

def get (e : Entry) : (f : Field) → f.Value
  | .family => e.family
  | .left => e.left
  | .right => e.right
  | .common => e.common
  | .result => e.result
  | .availability => e.availability

theorem exists_get (value : (f : Field) → f.Value) : ∃ e : Entry, ∀ f, e.get f = value f := by
  refine ⟨⟨value .family, value .left, value .right, value .common, value .result,
    value .availability⟩, fun f => ?_⟩
  cases f <;> rfl

/-- What some value of each field has, the values of one entry have. -/
theorem exists_entry {p : (f : Field) → f.Value → Prop} (h : ∀ f, ∃ a, p f a) :
    ∃ e : Entry, ∀ f, p f (e.get f) := by
  choose a ha using h
  obtain ⟨e, he⟩ := exists_get a
  exact ⟨e, fun f => he f ▸ ha f⟩

/-! ## what an object says of a field -/

section
variable (fields : List (String × Node)) (f : Field)

/-- The field is there and spells a value. -/
def Good (a : f.Value) : Prop :=
  ∃ node, fields.lookup f.key = some node ∧ node.Spells (Named.name a)

/-- The field is there and spells none of the names that it can hold. -/
def Bad (e : ReadError) : Prop :=
  ∃ node, fields.lookup f.key = some node ∧ node.Refused f.names e

def Missing : Prop := fields.lookup f.key = none

def found : Except ReadError (Option f.Value) := readField? fields f.key

theorem good_or_bad : (∃ a, Good fields f a) ∨ (∃ e, Bad fields f e) ∨ Missing fields f := by
  cases h : fields.lookup f.key with
  | none => exact .inr (.inr h)
  | some node =>
    rcases f.spells_or_refused node with ⟨a, spells⟩ | ⟨e, refused⟩
    · exact .inl ⟨a, node, h, spells⟩
    · exact .inr (.inl ⟨e, node, h, refused⟩)

end

section
variable {fields : List (String × Node)} {f : Field}

theorem found_of_good {a : f.Value} (h : Good fields f a) : found fields f = .ok (some a) := by
  obtain ⟨node, lookup, spells⟩ := h
  unfold found readField?
  rw [lookup]
  exact congrArg (Except.map some) (Named.read_of_spells spells)

theorem found_of_bad {e : ReadError} (h : Bad fields f e) : found fields f = .error e := by
  obtain ⟨node, lookup, refused⟩ := h
  unfold found readField?
  rw [lookup]
  exact congrArg (Except.map some) (Named.read_of_refused refused)

theorem found_of_missing (h : Missing fields f) : found fields f = .ok none := by
  unfold found readField?
  rw [h]

theorem exists_found (h : ∀ e, ¬ Bad fields f e) : ∃ o, found fields f = .ok o := by
  rcases good_or_bad fields f with ⟨a, good⟩ | ⟨e, bad⟩ | missing
  · exact ⟨some a, found_of_good good⟩
  · exact absurd bad (h e)
  · exact ⟨none, found_of_missing missing⟩

end

/-! ## six outcomes in the order of declaration -/

/-- The entry made of what each field comes to, up to the first error. -/
def assemble (x : (f : Field) → Except ReadError f.Value) : Except ReadError Entry := do
  let family ← x .family
  let left ← x .left
  let right ← x .right
  let common ← x .common
  let result ← x .result
  let availability ← x .availability
  return { family, left, right, common, result, availability }

section
variable {x : (f : Field) → Except ReadError f.Value}

theorem assemble_of_ok {e : Entry} (h : ∀ f, x f = .ok (e.get f)) : assemble x = .ok e := by
  unfold assemble
  rw [h .family, h .left, h .right, h .common, h .result, h .availability]
  rfl

theorem assemble_of_error {f : Field} {e : ReadError} (stop : x f = .error e)
    (first : ∀ g : Field, g.index < f.index → ∃ a, x g = .ok a) : assemble x = .error e := by
  cases f with
  | family => exact bind_of_error stop _
  | left =>
    obtain ⟨_, h0⟩ := first .family (by decide)
    exact (bind_of_ok h0 _).trans <| bind_of_error stop _
  | right =>
    obtain ⟨_, h0⟩ := first .family (by decide)
    obtain ⟨_, h1⟩ := first .left (by decide)
    exact (bind_of_ok h0 _).trans <| (bind_of_ok h1 _).trans <| bind_of_error stop _
  | common =>
    obtain ⟨_, h0⟩ := first .family (by decide)
    obtain ⟨_, h1⟩ := first .left (by decide)
    obtain ⟨_, h2⟩ := first .right (by decide)
    exact (bind_of_ok h0 _).trans <| (bind_of_ok h1 _).trans <| (bind_of_ok h2 _).trans <|
      bind_of_error stop _
  | result =>
    obtain ⟨_, h0⟩ := first .family (by decide)
    obtain ⟨_, h1⟩ := first .left (by decide)
    obtain ⟨_, h2⟩ := first .right (by decide)
    obtain ⟨_, h3⟩ := first .common (by decide)
    exact (bind_of_ok h0 _).trans <| (bind_of_ok h1 _).trans <| (bind_of_ok h2 _).trans <|
      (bind_of_ok h3 _).trans <| bind_of_error stop _
  | availability =>
    obtain ⟨_, h0⟩ := first .family (by decide)
    obtain ⟨_, h1⟩ := first .left (by decide)
    obtain ⟨_, h2⟩ := first .right (by decide)
    obtain ⟨_, h3⟩ := first .common (by decide)
    obtain ⟨_, h4⟩ := first .result (by decide)
    exact (bind_of_ok h0 _).trans <| (bind_of_ok h1 _).trans <| (bind_of_ok h2 _).trans <|
      (bind_of_ok h3 _).trans <| (bind_of_ok h4 _).trans <| bind_of_error stop _

end

/-- If some field has a property, one has it before all others in an order. -/
theorem exists_first (position : Field → Nat) {p : Field → Prop} (h : ∃ f, p f) :
    ∃ f, p f ∧ ∀ g, position g < position f → ¬ p g := by
  obtain ⟨f, hf, first⟩ := (measure position).wf.has_min {f | p f} h
  exact ⟨f, hf, fun g less hg => first g hg less⟩

/-! ## the whole object -/

section
variable {fields : List (String × Node)}

theorem ofFields_of_found {o : (f : Field) → Option f.Value} (h : ∀ f, found fields f = .ok (o f)) :
    ofFields fields = assemble fun f => required f.key (o f) :=
  (bind_of_ok (h .availability) _).trans <| (bind_of_ok (h .common) _).trans <|
    (bind_of_ok (h .family) _).trans <| (bind_of_ok (h .left) _).trans <|
    (bind_of_ok (h .result) _).trans <| bind_of_ok (h .right) _

/-- The first bad value ends the reading. -/
theorem ofFields_of_bad {f : Field} {e : ReadError} (bad : Bad fields f e)
    (first : ∀ g : Field, g.bytes < f.bytes → ∀ e, ¬ Bad fields g e) :
    ofFields fields = .error e := by
  have stop := found_of_bad bad
  have pass (g : Field) (h : g.rank < f.rank) : ∃ o, found fields g = .ok o :=
    exists_found (first g ((Field.rank_lt_iff g f).mp h))
  cases f with
  | availability => exact bind_of_error stop _
  | common =>
    obtain ⟨_, h0⟩ := pass .availability (by decide)
    exact (bind_of_ok h0 _).trans <| bind_of_error stop _
  | family =>
    obtain ⟨_, h0⟩ := pass .availability (by decide)
    obtain ⟨_, h1⟩ := pass .common (by decide)
    exact (bind_of_ok h0 _).trans <| (bind_of_ok h1 _).trans <| bind_of_error stop _
  | left =>
    obtain ⟨_, h0⟩ := pass .availability (by decide)
    obtain ⟨_, h1⟩ := pass .common (by decide)
    obtain ⟨_, h2⟩ := pass .family (by decide)
    exact (bind_of_ok h0 _).trans <| (bind_of_ok h1 _).trans <| (bind_of_ok h2 _).trans <|
      bind_of_error stop _
  | result =>
    obtain ⟨_, h0⟩ := pass .availability (by decide)
    obtain ⟨_, h1⟩ := pass .common (by decide)
    obtain ⟨_, h2⟩ := pass .family (by decide)
    obtain ⟨_, h3⟩ := pass .left (by decide)
    exact (bind_of_ok h0 _).trans <| (bind_of_ok h1 _).trans <| (bind_of_ok h2 _).trans <|
      (bind_of_ok h3 _).trans <| bind_of_error stop _
  | right =>
    obtain ⟨_, h0⟩ := pass .availability (by decide)
    obtain ⟨_, h1⟩ := pass .common (by decide)
    obtain ⟨_, h2⟩ := pass .family (by decide)
    obtain ⟨_, h3⟩ := pass .left (by decide)
    obtain ⟨_, h4⟩ := pass .result (by decide)
    exact (bind_of_ok h0 _).trans <| (bind_of_ok h1 _).trans <| (bind_of_ok h2 _).trans <|
      (bind_of_ok h3 _).trans <| (bind_of_ok h4 _).trans <| bind_of_error stop _

end

/-- What is read from an object: the entry, if it spells one; else the error of the bad value whose key
comes first in the order of the bytes; without bad values, the first missing field in the order of
declaration. -/
inductive Reads (fields : List (String × Node)) : Except ReadError Entry → Prop
  | entry {e} (good : ∀ f, Good fields f (e.get f)) : Reads fields (.ok e)
  | bad {f e} (bad : Bad fields f e)
      (first : ∀ g : Field, g.bytes < f.bytes → ∀ e, ¬ Bad fields g e) : Reads fields (.error e)
  | missing {f} (good : ∀ g e, ¬ Bad fields g e) (missing : Missing fields f)
      (first : ∀ g : Field, g.index < f.index → ¬ Missing fields g) :
    Reads fields (.error (.missingField f.key))

section
variable {fields : List (String × Node)}

theorem Reads.ofFields_eq {r : Except ReadError Entry} (h : Reads fields r) : ofFields fields = r := by
  cases h with
  | entry good =>
    rw [ofFields_of_found fun f => found_of_good (good f)]
    exact assemble_of_ok fun f => rfl
  | bad bad first => exact ofFields_of_bad bad first
  | @missing f good missing first =>
    choose o found using fun g => exists_found (good g)
    rw [ofFields_of_found found]
    refine assemble_of_error (f := f) ?_ fun g h => ?_
    · have none := Except.ok.inj ((found _).symm.trans (found_of_missing missing))
      rw [none]
      rfl
    · rcases good_or_bad fields g with ⟨a, here⟩ | ⟨e, bad⟩ | absent
      · have some := Except.ok.inj ((found g).symm.trans (found_of_good here))
        exact ⟨a, by rw [some]; rfl⟩
      · exact absurd bad (good g e)
      · exact absurd absent (first g h)

theorem exists_reads (fields : List (String × Node)) : ∃ r, Reads fields r := by
  by_cases someBad : ∃ f e, Bad fields f e
  · obtain ⟨f, ⟨e, bad⟩, first⟩ := exists_first Field.rank someBad
    refine ⟨_, .bad bad fun g less e' bad' => first g ?_ ⟨e', bad'⟩⟩
    exact (Field.rank_lt_iff g f).mpr less
  · have good : ∀ f e, ¬ Bad fields f e := fun f e bad => someBad ⟨f, e, bad⟩
    by_cases someMissing : ∃ f, Missing fields f
    · obtain ⟨f, missing, first⟩ := exists_first Field.index someMissing
      exact ⟨_, .missing good missing first⟩
    · have value (f : Field) : ∃ a, Good fields f a := by
        rcases good_or_bad fields f with here | ⟨e, bad⟩ | absent
        · exact here
        · exact absurd bad (good f e)
        · exact absurd ⟨f, absent⟩ someMissing
      obtain ⟨e, he⟩ := exists_entry value
      exact ⟨_, .entry he⟩

theorem read_object_iff {r : Except ReadError Entry} :
    read (.object fields) = r ↔ Reads fields r := by
  constructor
  · rintro rfl
    obtain ⟨r, h⟩ := exists_reads fields
    rwa [show read (.object fields) = r from h.ofFields_eq]
  · exact Reads.ofFields_eq

/-- An object spells an entry if every field is there with one of the names that it can hold. -/
theorem exists_read_iff : (∃ e, read (.object fields) = .ok e) ↔
    ∀ f : Field, ∃ node s, fields.lookup f.key = some node ∧ s ∈ f.names ∧ node.Spells s := by
  constructor
  · rintro ⟨e, he⟩ f
    cases read_object_iff.mp he with
    | entry good =>
      obtain ⟨node, lookup, spells⟩ := good f
      exact ⟨node, _, lookup, Named.mem_names_iff.mpr ⟨_, rfl⟩, spells⟩
  · intro h
    have value (f : Field) : ∃ a, Good fields f a := by
      obtain ⟨node, s, lookup, hs, spells⟩ := h f
      obtain ⟨a, rfl⟩ := Named.mem_names_iff.mp hs
      exact ⟨a, node, lookup, spells⟩
    obtain ⟨e, he⟩ := exists_entry value
    exact ⟨e, read_object_iff.mpr (.entry he)⟩

end

theorem read_toNode (e : Entry) : read e.toNode = .ok e := by
  refine read_object_iff.mpr (.entry fun f => ?_)
  cases f with
  | family => exact ⟨_, rfl, Named.spells_toNode e.family⟩
  | left => exact ⟨_, rfl, Named.spells_toNode e.left⟩
  | right => exact ⟨_, rfl, Named.spells_toNode e.right⟩
  | common => exact ⟨_, rfl, Named.spells_toNode e.common⟩
  | result => exact ⟨_, rfl, Named.spells_toNode e.result⟩
  | availability => exact ⟨_, rfl, Named.spells_toNode e.availability⟩

/-- Only the six fields matter. -/
theorem read_congr {fields fields' : List (String × Node)}
    (h : ∀ f : Field, fields.lookup f.key = fields'.lookup f.key) :
    read (.object fields) = read (.object fields') := by
  have availability : fields.lookup "availability" = fields'.lookup "availability" := h .availability
  have common : fields.lookup "common" = fields'.lookup "common" := h .common
  have family : fields.lookup "family" = fields'.lookup "family" := h .family
  have left : fields.lookup "left" = fields'.lookup "left" := h .left
  have result : fields.lookup "result" = fields'.lookup "result" := h .result
  have right : fields.lookup "right" = fields'.lookup "right" := h .right
  simp only [read, ofFields, readField?, availability, common, family, left, result, right]

/-- **Entries are read back as they were written**, and an object is read as one iff each of the six
fields is there with a name that it can hold, as a text or as a key with nothing under it; the kinds
are those that can be looked up by name.  Otherwise the first bad value in the order of the keys'
bytes is reported, or without one the first missing field in the order of declaration; no other key
matters. -/
theorem entry_of_object :
    (∀ e : Entry, read e.toNode = .ok e) ∧
    (∀ fields, (∃ e, read (.object fields) = .ok e) ↔
      ∀ f : Field, ∃ node s, fields.lookup f.key = some node ∧ s ∈ f.names ∧ node.Spells s) ∧
    (∀ fields r, read (.object fields) = r ↔ Reads fields r) ∧
    (∀ fields fields', (∀ f : Field, fields.lookup f.key = fields'.lookup f.key) →
      read (.object fields) = read (.object fields')) ∧
    ∀ s, s ∈ Named.names Kind ↔ ∃ k, Kind.ofName? s = some k := by
  refine ⟨read_toNode, fun _ => exists_read_iff, fun _ _ => read_object_iff,
    fun _ _ => read_congr, fun s => ?_⟩
  rw [Named.mem_names_iff]
  exact exists_congr fun k => Named.ofName?_eq_some_iff.symm

/-- An object in which a name is a key. -/
def nested : List (String × Node) := [
  ("availability", .text "available"), ("common", .text "int16"), ("family", .text "comparison"),
  ("left", .object [("int8", .null)]), ("result", .text "bool"), ("right", .text "uint8")]

/-- A name is also read where it is no text. -/
theorem nested_is_read : ¬ ((∃ e, read (.object nested) = .ok e) ↔
    ∀ f : Field, ∃ s, nested.lookup f.key = some (.text s) ∧ s ∈ f.names) := by
  intro h
  have spelled := h.mp
    ⟨⟨.comparison, .signed .w8, .unsigned .w8, .signed .w16, .bool, .available⟩, rfl⟩
  obtain ⟨s, lookup, -⟩ := spelled .left
  exact nomatch (Option.some.inj lookup : Node.object [("int8", .null)] = .text s)

/-! ## the whole list -/

section
variable (items : List Node) (f : Field)

def GoodItem (a : f.Value) : Prop :=
  ∃ node, items[f.index]? = some node ∧ node.Spells (Named.name a)

def BadItem (e : ReadError) : Prop :=
  ∃ node, items[f.index]? = some node ∧ node.Refused f.names e

end

/-- What is read from a list: the entry, if its six names are the list; else the error of the first bad
item in the order of declaration; without bad items, a list of another length. -/
inductive ReadsItems (items : List Node) : Except ReadError Entry → Prop
  | entry {e} (length : items.length = 6) (good : ∀ f, GoodItem items f (e.get f)) :
    ReadsItems items (.ok e)
  | bad {f e} (bad : BadItem items f e)
      (first : ∀ g : Field, g.index < f.index → ∀ e, ¬ BadItem items g e) :
    ReadsItems items (.error e)
  | length (length : items.length ≠ 6) (good : ∀ f e, ¬ BadItem items f e) :
    ReadsItems items (.error .wrongShape)

section
variable {items : List Node} {f : Field}

theorem readItem_of_good {a : f.Value} (h : GoodItem items f a) :
    readItem items f.index = .ok a := by
  obtain ⟨node, here, spells⟩ := h
  rw [readItem_of_getElem? here, Named.read_of_spells spells]

theorem readItem_of_bad {e : ReadError} (h : BadItem items f e) :
    (readItem items f.index : Except ReadError f.Value) = .error e := by
  obtain ⟨node, here, refused⟩ := h
  rw [readItem_of_getElem? here]
  exact Named.read_of_refused refused

theorem exists_goodItem (here : f.index < items.length) (good : ∀ e, ¬ BadItem items f e) :
    ∃ a, GoodItem items f a := by
  have item := List.getElem?_eq_getElem here
  rcases f.spells_or_refused items[f.index] with ⟨a, spells⟩ | ⟨e, refused⟩
  · exact ⟨a, _, item, spells⟩
  · exact absurd ⟨_, item, refused⟩ (good e)

theorem ofItems_eq (items : List Node) :
    ofItems items = assemble fun f => readItem items f.index := rfl

theorem ofItems_of_good {e : Entry} (good : ∀ f, GoodItem items f (e.get f)) :
    ofItems items = .ok e := by
  rw [ofItems_eq]
  exact assemble_of_ok fun f => readItem_of_good (good f)

theorem ofItems_of_error {e : ReadError}
    (stop : (readItem items f.index : Except ReadError f.Value) = .error e)
    (here : f.index ≤ items.length)
    (good : ∀ g : Field, g.index < f.index → ∀ e, ¬ BadItem items g e) :
    ofItems items = .error e := by
  rw [ofItems_eq]
  refine assemble_of_error stop fun g less => ?_
  obtain ⟨a, ha⟩ := exists_goodItem (less.trans_le here) (good g less)
  exact ⟨a, readItem_of_good ha⟩

theorem ReadsItems.read_eq {r : Except ReadError Entry} (h : ReadsItems items r) :
    read (.list items) = r := by
  cases h with
  | entry length good => exact (bind_of_ok (ofItems_of_good good) _).trans (if_pos length)
  | bad bad first =>
    have ⟨_, item, _⟩ := bad
    obtain ⟨here, -⟩ := List.getElem?_eq_some_iff.mp item
    exact bind_of_error (ofItems_of_error (readItem_of_bad bad) here.le first) _
  | length length good =>
    -- a short list ends at the first place without an item, a long one only after the six are read
    rcases Nat.lt_or_gt_of_ne length with short | long
    · obtain ⟨f, hf⟩ := Field.exists_index short
      exact bind_of_error
        (ofItems_of_error (readItem_of_le hf.ge) hf.le fun g _ => good g) _
    · obtain ⟨e, he⟩ := exists_entry fun f => exists_goodItem (f.index_lt.trans long) (good f)
      exact (bind_of_ok (ofItems_of_good he) _).trans (if_neg length)

theorem exists_readsItems (items : List Node) : ∃ r, ReadsItems items r := by
  by_cases someBad : ∃ f e, BadItem items f e
  · obtain ⟨f, ⟨e, bad⟩, first⟩ := exists_first Field.index someBad
    exact ⟨_, .bad bad fun g less e' bad' => first g less ⟨e', bad'⟩⟩
  · have good : ∀ f e, ¬ BadItem items f e := fun f e bad => someBad ⟨f, e, bad⟩
    by_cases length : items.length = 6
    · obtain ⟨e, he⟩ := exists_entry fun f =>
        exists_goodItem (f.index_lt.trans_eq length.symm) (good f)
      exact ⟨_, .entry length he⟩
    · exact ⟨_, .length length good⟩

theorem read_list_iff {r : Except ReadError Entry} :
    read (.list items) = r ↔ ReadsItems items r := by
  constructor
  · rintro rfl
    obtain ⟨r, h⟩ := exists_readsItems items
    rwa [h.read_eq]
  · exact ReadsItems.read_eq

end

end Entry

end Pointwise
