import Beagle.Compile
import Beagle.Proofs.CodeWords
import Beagle.Proofs.Inheritance.Resolution
import Beagle.Proofs.ReadNames

/-!
Generated code is well formed.  Each type of a unit has one block of code; blocks define different
symbols, and use none but their own and those of their parent, which is either generated before or not
generated at all.
-/

namespace Beagle

namespace Symbol

theorem mangle_ne_empty {name : DottedName} (proper : name.Proper) : (mangle name).toList ≠ [] := by
  intro empty
  have segments := unmangle_intercalate name.segments_ne_nil proper
  rw [← toList_mangle, empty] at segments
  have blank : [] ∈ name.segments.map String.toList := segments ▸ by simp [unmangle]
  obtain ⟨segment, member, same⟩ := List.mem_map.mp blank
  obtain ⟨first, others, letters, _⟩ := proper segment member
  simp [same] at letters

theorem notMem_vocabulary {name : DottedName} (proper : name.Proper) {symbol : String}
    (isDefined : symbol ∈ defined name) : symbol ∉ Code.vocabulary := by
  rw [defined_eq_map] at isDefined
  obtain ⟨role, isRole, rfl⟩ := List.mem_map.mp isDefined
  intro fixed
  have short : ∀ role ∈ roles, ∀ word ∈ Code.vocabulary, role.toList <+: word.toList →
      word.toList.length < role.toList.length + 2 := by decide
  have bounded := short role isRole _ fixed (by simp [List.append_assoc])
  have positive := List.length_pos_iff.mpr (mangle_ne_empty proper)
  simp only [String.toList_append, List.length_append] at bounded
  have one : "_".toList.length = 1 := rfl
  omega

end Symbol

namespace Inheritance

variable {types : List Declared} {place : Fin types.length}

theorem parent_cases {parent : DottedName} (isParent : (entry types place).parent = some parent) :
    (∃ above, parent? types place = some above ∧ (entry types above).name = parent) ∨
      ((types.get place).decl.base? = some parent ∧ ∀ type ∈ types, type.name ≠ parent) := by
  simp only [entry] at isParent
  cases found : parent? types place with
  | some above =>
      rw [found] at isParent
      exact .inl ⟨above, rfl, Option.some.inj isParent⟩
  | none =>
      simp only [found] at isParent
      refine .inr ⟨isParent, fun type member same => ?_⟩
      simp only [parent?, isParent, Option.bind_eq_bind, Option.bind_some, resolve?] at found
      split at found
      · simp at found
      · rename_i absent
        have different := List.findFinIdx?_eq_none_iff.mp absent type member
        simp [same] at different

theorem names_perm {places : List (Fin types.length)}
    (perm : places.Perm (List.finRange types.length)) :
    ((places.map (entry types)).map Entry.name).Perm (types.map Declared.name) := by
  have same := (perm.map types.get).map Declared.name
  rw [List.map_get_finRange, List.map_map] at same
  rw [List.map_map]
  exact same

end Inheritance

namespace Layout

def definitions (name : DottedName) : List String :=
  ["\x7d " ++ Symbol.staticRecord name ++ ";" ++ "\n",
    "\x7d " ++ Symbol.dynamicRecord name ++ ";" ++ "\n",
    "static " ++ Symbol.staticRecord name ++ " " ++ Symbol.slot name ++ ";" ++ "\n",
    "static void " ++ Symbol.setup name ++ "()\n\x7b" ++ "\n"]

structure WellFormed (entries : List Entry) : Prop where
  defines : ∀ entry ∈ entries, ∀ definition ∈ definitions entry.name,
    ∃ before after, block entry = before ++ definition ++ after
  distinct : (entries.flatMap fun entry => Symbol.defined entry.name).Nodup
  uses : ∀ entry ∈ entries, ∀ word ∈ Code.words (block entry),
    word ∈ Code.vocabulary ∨ word ∈ Symbol.defined entry.name ∨
      ∃ parent, entry.parent = some parent ∧ word ∈ Symbol.inherited parent
  reserved : ∀ entry ∈ entries, ∀ symbol ∈ Symbol.defined entry.name, symbol ∉ Code.vocabulary
  parents : ∀ front entry back, entries = front ++ entry :: back →
    ∀ parent, entry.parent = some parent →
      (∃ earlier ∈ front, earlier.name = parent) ∨
        ∀ symbol ∈ Symbol.defined parent, ∀ other ∈ entries, symbol ∉ Symbol.defined other.name

theorem exists_block_eq {entry : Entry} (fragment : Fragment) (member : fragment ∈ ofEntry entry) :
    ∃ before after, block entry = before ++ fragment.render ++ after := by
  obtain ⟨front, back, split⟩ := List.append_of_mem member
  refine ⟨Fragment.renderAll front, Fragment.renderAll back, ?_⟩
  simp [block, split, Fragment.renderAll, String.append_assoc]

theorem block_defines (entry : Entry) : ∀ definition ∈ definitions entry.name,
    ∃ before after, block entry = before ++ definition ++ after := by
  simp only [definitions, List.forall_mem_cons, List.not_mem_nil, false_imp_iff, implies_true, and_true]
  refine ⟨exists_block_eq (recordEnd (Symbol.staticRecord entry.name)) ?_,
    exists_block_eq (recordEnd (Symbol.dynamicRecord entry.name)) ?_,
    exists_block_eq (.line ("static " ++ Symbol.staticRecord entry.name ++ " " ++
      Symbol.slot entry.name ++ ";")) ?_,
    exists_block_eq (.line ("static void " ++ Symbol.setup entry.name ++ "()\n\x7b")) ?_⟩
  · simp [ofEntry, staticRecord]
  · simp [ofEntry, dynamicRecord]
  · simp [ofEntry, slot]
  · simp [ofEntry, setup]

open Inheritance in
theorem wellFormed_of_perm {types : List Declared} {places : List (Fin types.length)}
    (proper : ∀ type ∈ types, type.name.Proper ∧ ∀ base ∈ type.decl.base?, base.Proper)
    (distinct : (types.map Declared.name).Nodup) (perm : places.Perm (List.finRange types.length))
    (ancestors : AncestorsFirst (parent? types) places) : WellFormed (places.map (entry types)) := by
  have properEntry (place : Fin types.length) : (entry types place).name.Proper :=
    (proper _ (types.get_mem place)).1
  have properParent (place : Fin types.length) :
      ∀ parent ∈ (entry types place).parent, parent.Proper := by
    intro parent isParent
    rcases parent_cases isParent with ⟨above, _, rfl⟩ | ⟨isBase, _⟩
    · exact properEntry above
    · exact (proper _ (types.get_mem place)).2 parent isBase
  refine ⟨fun entry _ => block_defines entry, ?_, ?_, ?_, ?_⟩
  · have namesProper : ∀ name ∈ (places.map (entry types)).map Entry.name, name.Proper := by
      simpa using fun place _ => properEntry place
    have separate := Symbol.nodup_flatMap_defined namesProper ((names_perm perm).nodup_iff.mpr distinct)
    simpa [List.flatMap_map] using separate
  · intro entry member word isWord
    obtain ⟨place, _, rfl⟩ := List.mem_map.mp member
    have known := words_block_subset (properEntry place) (properParent place) isWord
    simpa [Layout.known, or_assoc] using known
  · intro entry member symbol isDefined
    obtain ⟨place, _, rfl⟩ := List.mem_map.mp member
    exact Symbol.notMem_vocabulary (properEntry place) isDefined
  · intro front current back split parent isParent
    obtain ⟨frontPlaces, rest, places_eq, rfl, rest_eq⟩ := List.map_eq_append_iff.mp split
    obtain ⟨place, backPlaces, rfl, rfl, rfl⟩ := List.map_eq_cons_iff.mp rest_eq
    rcases parent_cases isParent with ⟨above, isAbove, rfl⟩ | ⟨_, undeclared⟩
    · have before := ancestors frontPlaces place backPlaces places_eq above isAbove
      exact .inl ⟨entry types above, List.mem_map_of_mem before, rfl⟩
    · refine .inr fun symbol isDefined other member isOther => ?_
      obtain ⟨otherPlace, _, rfl⟩ := List.mem_map.mp member
      refine undeclared _ (types.get_mem otherPlace) ?_
      exact Symbol.name_unique (properEntry otherPlace) (properParent place parent isParent) isOther
        isDefined

theorem renderAll_ofEntries (header : String) (entries : List Entry) :
    Fragment.renderAll (ofEntries header entries) =
      Fragment.renderAll (opening header) ++ String.join (entries.map block) := by
  have blocks : Fragment.renderAll (entries.flatMap ofEntry) = String.join (entries.map block) := by
    induction entries with
    | nil => rfl
    | cons entry entries ih =>
        rw [List.flatMap_cons, List.map_cons, String.join_cons, ← ih]
        simp [block, Fragment.renderAll]
  rw [← blocks]
  simp [ofEntries, Fragment.renderAll]

end Layout

namespace SourceUnit

theorem wellFormed_of_entries {unit : SourceUnit} {entries : List Entry}
    (found : unit.entries = .ok entries) (proper : unit.Proper) :
    (∃ places : List (Fin unit.declared.length), places.Perm (List.finRange unit.declared.length) ∧
      entries = places.map (Inheritance.entry unit.declared)) ∧ Layout.WellFormed entries := by
  obtain ⟨distinct, places, ordered, rfl⟩ := order_of_entries found
  obtain ⟨perm, ancestors⟩ := Inheritance.perm_of_order ordered (List.nodup_finRange _)
  refine ⟨⟨places, perm, rfl⟩, Layout.wellFormed_of_perm ?_ ?_ perm ancestors⟩
  · intro type member
    obtain ⟨decl, isDecl, rfl⟩ := List.mem_map.mp member
    refine ⟨proper.nameOf isDecl, ?_⟩
    intro base isBase
    obtain ⟨type, isFirst, rfl⟩ := Option.map_eq_some_iff.mp isBase
    exact (proper.types decl isDecl).bases type (List.mem_of_mem_head? isFirst)
  · refine List.Nodup.of_map DottedName.text ?_
    rw [List.map_map]
    exact distinct

end SourceUnit

theorem layout_of_compile {settings : Settings} {file text output : String}
    (emits : settings.emit = .layout) (compiled : compile settings file text = .ok output) :
    let state := State.ofSource (SourceText.ofString file text) settings.lookahead .empty
    ∃ unit entries, state.parse.1 = .ok unit ∧ unit.entries = .ok entries ∧
      output = Fragment.renderAll (Layout.ofEntries settings.header entries) := by
  intro state
  simp only [compile, compileIn] at compiled
  split at compiled
  · simp at compiled
  · simp at compiled
  · rename_i unit parsed
    split at compiled
    · simp at compiled
    · simp only [SourceUnit.generate, emits, SourceUnit.layout] at compiled
      cases found : unit.entries with
      | error error =>
          rw [found] at compiled
          cases compiled
      | ok entries =>
          rw [found] at compiled
          exact ⟨unit, entries, parsed, found, (Except.ok.inj compiled).symm⟩

/-- Code that is generated from a text is well formed: behind the opening, which depends on the header
alone, stands one block for each type of the parsed unit, and the blocks fit together. -/
theorem compile_layout_wellFormed {settings : Settings} {file text output : String}
    (emits : settings.emit = .layout) (compiled : compile settings file text = .ok output) :
    ∃ (unit : SourceUnit) (places : List (Fin unit.declared.length)),
      (State.ofSource (SourceText.ofString file text) settings.lookahead .empty).parse.1 = .ok unit ∧
      places.Perm (List.finRange unit.declared.length) ∧
      let entries := places.map (Inheritance.entry unit.declared)
      output = Fragment.renderAll (Layout.opening settings.header) ++
        String.join (entries.map Layout.block) ∧
      Layout.WellFormed entries := by
  obtain ⟨unit, entries, parsed, found, rfl⟩ := layout_of_compile emits compiled
  have proper := State.proper_of_parse (State.worded_ofSource _ _ _) parsed
  obtain ⟨⟨places, perm, rfl⟩, wellFormed⟩ := SourceUnit.wellFormed_of_entries found proper
  exact ⟨unit, places, parsed, perm, Layout.renderAll_ofEntries _ _, wellFormed⟩

/-- A type declared before its parent, whose own parent is not of the unit. -/
theorem compile_layout_wellFormed_example : ∃ (output : String) (entries : List Entry),
    compile {} "a.bgl" "class b_c:A class A:Z" = .ok output ∧
    (entries.map (·.name.text)).Perm ["b_c", "A"] ∧
    output = Fragment.renderAll (Layout.opening "beagle/base.h") ++
      String.join (entries.map Layout.block) ∧
    Layout.WellFormed entries := by
  have accepted : (compile {} "a.bgl" "class b_c:A class A:Z").isOk := by decide +kernel
  have read : (State.ofSource (SourceText.ofString "a.bgl" "class b_c:A class A:Z")
      (Settings.lookahead {}) .empty).parse.1.map (fun unit => unit.declared.map (·.name.text)) =
      .ok ["b_c", "A"] := by decide +kernel
  match compiled : compile {} "a.bgl" "class b_c:A class A:Z" with
  | .error error => simp [compiled, Except.isOk, Except.toBool] at accepted
  | .ok output =>
      obtain ⟨unit, places, parsed, perm, same, wellFormed⟩ := compile_layout_wellFormed rfl compiled
      refine ⟨output, _, rfl, ?_, same, wellFormed⟩
      rw [parsed] at read
      rw [← Except.ok.inj read]
      have texts := (Inheritance.names_perm perm).map DottedName.text
      simpa [Function.comp_def] using texts

end Beagle
