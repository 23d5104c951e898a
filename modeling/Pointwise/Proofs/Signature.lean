import Pointwise.Kernel.Basic
import Pointwise.Proofs.Document

/-!
# The text of a signature

The name of a kind is made of letters and digits.  So the only dash in the text of a signature is that
of the arrow, and the commas on either side of it are those between the names: the two lists can be
read back, whatever their lengths.

* `Kind.readNames`, `readNames_listText`   a list of kinds read back;
* `KindSignature.ofText?`   a signature read back;
* `signature_of_text`   no two signatures have the same text.
-/

namespace Pointwise

/-! ## lists with a separator -/

section
variable {α : Type} {sep : List α} {parts : List (List α)}

theorem filter_intercalate (p : α → Bool) (sep : List α) (parts : List (List α)) :
    (sep.intercalate parts).filter p = (sep.filter p).intercalate (parts.map (List.filter p)) := by
  induction parts with
  | nil => simp
  | cons a parts ih =>
    cases parts with
    | nil => simp
    | cons b parts =>
      rw [List.intercalate_cons_cons, List.filter_append, List.filter_append, ih, List.map_cons,
        List.map_cons, List.map_cons, List.intercalate_cons_cons]

theorem not_mem_intercalate {x : α} (hs : x ∉ sep) (hp : ∀ part ∈ parts, x ∉ part) :
    x ∉ sep.intercalate parts := by
  induction parts with
  | nil => simp
  | cons a parts ih =>
    rw [List.forall_mem_cons] at hp
    cases parts with
    | nil => simpa using hp.1
    | cons b parts =>
      rw [List.intercalate_cons_cons, List.mem_append, List.mem_append]
      exact not_or.mpr ⟨not_or.mpr ⟨hp.1, hs⟩, ih hp.2⟩

end

/-! ## a list of kinds -/

namespace Kind

theorem isAlphanum_name (k : Kind) : ∀ c ∈ k.name.toList, c.isAlphanum = true := by
  rw [← List.all_eq_true]
  rcases k with (_ | _ | _ | _) | (_ | _ | _ | _) | (_ | _ | _) | (_ | _ | _) | _ <;> rfl

theorem not_mem_name (k : Kind) {c : Char} (h : c.isAlphanum = false) : c ∉ k.name.toList := by
  intro hc
  rw [isAlphanum_name k c hc] at h
  exact nomatch h

/-- Letters and digits, of which names are made, and the comma between them. -/
def isListed (c : Char) : Bool := c.isAlphanum || c == ','

/-- The kinds whose names stand between the commas of a text; what cannot be part of a name is passed
over. -/
def readNames (text : List Char) : List Kind :=
  ((text.filter isListed).splitOn ',').filterMap fun name => ofName? (.ofList name)

theorem filter_name (k : Kind) : k.name.toList.filter isListed = k.name.toList := by
  rw [List.filter_eq_self]
  intro c hc
  unfold isListed
  rw [isAlphanum_name k c hc, Bool.true_or]

theorem filter_listText (kinds : List Kind) : (listText kinds).toList.filter isListed
    = [','].intercalate (kinds.map fun k => k.name.toList) := by
  have sep : ", ".toList.filter isListed = [','] := by decide
  unfold listText
  rw [String.toList_intercalate, filter_intercalate, sep, List.map_map, List.map_map]
  exact congrArg _ (List.map_congr_left fun k _ => filter_name k)

theorem dash_not_mem_listText (kinds : List Kind) : '-' ∉ (listText kinds).toList := by
  unfold listText
  rw [String.toList_intercalate, List.map_map]
  refine not_mem_intercalate (by decide) fun part hp => ?_
  obtain ⟨k, -, rfl⟩ := List.mem_map.mp hp
  exact not_mem_name k (by decide)

/-- The names on one side of the arrow are read back, with what is left of the arrow around them. -/
theorem readNames_listText (before after : List Char) (hb : before.filter isListed = [])
    (ha : after.filter isListed = []) (kinds : List Kind) :
    readNames (before ++ (listText kinds).toList ++ after) = kinds := by
  unfold readNames
  rw [List.filter_append, List.filter_append, hb, ha, List.append_nil, List.nil_append,
    filter_listText]
  cases kinds with
  | nil => decide
  | cons k kinds =>
    have commas : ∀ part ∈ (k :: kinds).map fun k => k.name.toList, ',' ∉ part := by
      intro part hp
      obtain ⟨k, -, rfl⟩ := List.mem_map.mp hp
      exact not_mem_name k (by decide)
    have read (k : Kind) : ofName? (.ofList k.name.toList) = some k := by
      rw [String.ofList_toList]
      exact Named.ofName?_name k
    rw [List.splitOn_intercalate ',' commas (by simp), List.filterMap_map]
    exact (List.filterMap_congr fun k _ => read k).trans List.filterMap_some

end Kind

/-! ## a signature -/

namespace KindSignature

/-- The signature whose kinds are named on the two sides of a dash. -/
def ofText? (text : String) : Option KindSignature :=
  match text.toList.splitOn '-' with
  | [before, after] => some ⟨Kind.readNames before, Kind.readNames after⟩
  | _ => none

theorem splitOn_text (s : KindSignature) : s.text.toList.splitOn '-'
    = [(Kind.listText s.inputs).toList ++ [' '], ['>', ' '] ++ (Kind.listText s.outputs).toList] := by
  have text : s.text.toList = ['-'].intercalate
      [(Kind.listText s.inputs).toList ++ [' '], ['>', ' '] ++ (Kind.listText s.outputs).toList] := by
    simp [KindSignature.text]
  rw [text]
  refine List.splitOn_intercalate '-' (fun part hp => ?_) (List.cons_ne_nil _ _)
  rcases List.mem_cons.mp hp with rfl | hp
  · exact List.not_mem_append (Kind.dash_not_mem_listText s.inputs) (by decide)
  · obtain rfl := List.mem_singleton.mp hp
    exact List.not_mem_append (by decide) (Kind.dash_not_mem_listText s.outputs)

theorem ofText?_text (s : KindSignature) : ofText? s.text = some s := by
  have inputs := Kind.readNames_listText [] [' '] rfl (by decide) s.inputs
  have outputs := Kind.readNames_listText ['>', ' '] [] (by decide) rfl s.outputs
  rw [List.nil_append] at inputs
  rw [List.append_nil] at outputs
  unfold ofText?
  rw [splitOn_text]
  dsimp only
  rw [inputs, outputs]

end KindSignature

/-- **A signature can be read off its text**, so that two signatures with the same text are equal. -/
theorem signature_of_text (s t : KindSignature) :
    KindSignature.ofText? s.text = some s ∧ (s.text = t.text ↔ s = t) := by
  refine ⟨s.ofText?_text, fun h => ?_, congrArg _⟩
  have read := s.ofText?_text
  rw [h, t.ofText?_text] at read
  exact (Option.some.inj read).symm

end Pointwise
