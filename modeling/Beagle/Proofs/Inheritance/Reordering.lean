import Beagle.Proofs.Inheritance.Cycles

/-!
Declarations in another order.  A base means the same type wherever it and the types that could be meant
stand, so another order of the declarations changes neither whether they can be put in order nor what
is generated for each of them.
-/

namespace Beagle

namespace Inheritance

section Entries

variable {types others : List Declared}

def inherited? (types : List Declared) (type : Declared) : Option Declared :=
  type.decl.base?.bind fun base => (resolve? types base).map types.get

def entryOf (types : List Declared) (type : Declared) : Entry where
  decl := type.decl
  name := type.name
  parent := match inherited? types type with
    | some above => some above.name
    | none => type.decl.base?

theorem entry_eq_entryOf (place : Fin types.length) : entry types place = entryOf types (types.get place) := by
  have same : inherited? types (types.get place) = (parent? types place).map types.get := by
    rw [inherited?, parent?]
    cases (types.get place).decl.base? <;> rfl
  rw [entry, entryOf, same]
  cases parent? types place <;> rfl

theorem inherited?_eq_some_iff (distinct : (types.map (·.name.text)).Nodup) {type above : Declared}
    (member : type ∈ types) : inherited? types type = some above ↔ Inherits types type above := by
  simp only [inherited?, Option.bind_eq_some_iff, Option.map_eq_some_iff, resolve?_eq_some_iff distinct]
  constructor
  · rintro ⟨base, isBase, place, means, rfl⟩
    exact ⟨member, base, isBase, means⟩
  · rintro ⟨_, base, isBase, means⟩
    obtain ⟨place, rfl⟩ := List.get_of_mem means.1
    exact ⟨base, isBase, place, means, rfl⟩

theorem entryOf_congr (perm : types.Perm others) (distinct : (types.map (·.name.text)).Nodup)
    {type : Declared} (member : type ∈ types) : entryOf types type = entryOf others type := by
  have othersDistinct : (others.map (·.name.text)).Nodup := (perm.map _).nodup_iff.mp distinct
  have same : inherited? types type = inherited? others type := by
    apply Option.ext
    intro above
    rw [inherited?_eq_some_iff distinct member,
      inherited?_eq_some_iff othersDistinct (perm.mem_iff.mp member), inherits_congr fun _ => perm.mem_iff]
  rw [entryOf, entryOf, same]

theorem map_entry_finRange : (List.finRange types.length).map (entry types) = types.map (entryOf types) := by
  calc (List.finRange types.length).map (entry types)
      _ = (List.finRange types.length).map (entryOf types ∘ types.get) :=
          List.map_congr_left fun place _ => entry_eq_entryOf place
      _ = types.map (entryOf types) := by rw [← List.map_map, List.map_get_finRange]

open scoped List in
theorem map_entry_perm (perm : types.Perm others) (distinct : (types.map (·.name.text)).Nodup)
    {places : List (Fin types.length)} {otherPlaces : List (Fin others.length)}
    (all : places.Perm (List.finRange types.length))
    (othersAll : otherPlaces.Perm (List.finRange others.length)) :
    (places.map (entry types)).Perm (otherPlaces.map (entry others)) := by
  calc places.map (entry types)
      _ ~ (List.finRange types.length).map (entry types) := all.map _
      _ = types.map (entryOf types) := map_entry_finRange
      _ = types.map (entryOf others) :=
          List.map_congr_left fun type member => entryOf_congr perm distinct member
      _ ~ others.map (entryOf others) := perm.map _
      _ = (List.finRange others.length).map (entry others) := map_entry_finRange.symm
      _ ~ otherPlaces.map (entry others) := (othersAll.map _).symm

end Entries

/-- Outcomes that differ at most in the order of the entries, or in the type that is blamed. -/
inductive SameUpToOrder :
    Except InheritanceError (List Entry) → Except InheritanceError (List Entry) → Prop
  | entries {entries others : List Entry} (perm : entries.Perm others) :
      SameUpToOrder (.ok entries) (.ok others)
  | duplicate (text other : String) : SameUpToOrder (.error (.duplicate text)) (.error (.duplicate other))
  | cycle (text other : String) : SameUpToOrder (.error (.cycle text)) (.error (.cycle other))

end Inheritance

namespace SourceUnit

open Inheritance

/-- Another order of the declarations changes at most the order in which types are generated, or which
type is blamed for a failure. -/
theorem entries_reordered (unit : SourceUnit) {types : List TypeDecl} (perm : unit.types.Perm types) :
    SameUpToOrder unit.entries (entries { unit with types := types }) := by
  let other : SourceUnit := { unit with types := types }
  have declared : unit.declared.Perm other.declared := perm.map _
  have texts : (unit.declared.map (·.name.text)).Nodup ↔ (other.declared.map (·.name.text)).Nodup :=
    (declared.map _).nodup_iff
  have inherits : Inherits unit.declared = Inherits other.declared :=
    inherits_congr fun _ => declared.mem_iff
  change SameUpToOrder unit.entries other.entries
  rcases unit.entries_outcome with ⟨text, repeated, result⟩ |
    ⟨distinct, ⟨type, _, cyclic, result⟩ | ⟨acyclic, places, all, result⟩⟩
  · rcases other.entries_outcome with ⟨otherText, _, otherResult⟩ | ⟨otherDistinct, _⟩
    · rw [result, otherResult]
      exact .duplicate text otherText
    · exact absurd (texts.mpr otherDistinct) repeated.not_nodup
  · rcases other.entries_outcome with ⟨_, repeated, _⟩ |
      ⟨_, ⟨otherType, _, _, otherResult⟩ | ⟨acyclic, _⟩⟩
    · exact absurd (texts.mp distinct) repeated.not_nodup
    · rw [result, otherResult]
      exact .cycle type.name.text otherType.name.text
    · exact absurd (inherits ▸ cyclic) (acyclic type)
  · rcases other.entries_outcome with ⟨_, repeated, _⟩ |
      ⟨_, ⟨otherType, _, cyclic, _⟩ | ⟨_, otherPlaces, othersAll, otherResult⟩⟩
    · exact absurd (texts.mp distinct) repeated.not_nodup
    · exact absurd (inherits ▸ cyclic) (acyclic otherType)
    · rw [result, otherResult]
      exact .entries (map_entry_perm declared distinct all othersAll)

/-- The same classes from first to last and from last to first. -/
theorem entries_reordered_example :
    let unit := ofClasses [("C", ["B", "A"]), ("A", []), ("B", ["A"])]
    let reversed : SourceUnit := { unit with types := unit.types.reverse }
    ∃ entries others, unit.entries = .ok entries ∧ reversed.entries = .ok others ∧
      entries.Perm others := by
  intro unit reversed
  have ordered : unit.entries.isOk := by decide +kernel
  have same : SameUpToOrder unit.entries reversed.entries :=
    entries_reordered unit (List.reverse_perm unit.types).symm
  generalize unit.entries = outcome, reversed.entries = other at ordered same
  cases same with
  | entries perm => exact ⟨_, _, rfl, rfl, perm⟩
  | duplicate text other => simp [Except.isOk, Except.toBool] at ordered
  | cycle text other => simp [Except.isOk, Except.toBool] at ordered

end SourceUnit

end Beagle
