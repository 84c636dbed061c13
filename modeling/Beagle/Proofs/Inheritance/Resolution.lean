import Beagle.Proofs.AncestorOrder

/-!
What a base means.  The rule is stated by which types a unit has, not by where they stand in it, and the
search through the places of a list finds what the rule says if no two names have the same text.
-/

namespace Beagle.Inheritance

section Repetition

def FirstRepeated (texts : List String) (text : String) : Prop :=
  ∃ front back, texts = front ++ text :: back ∧ text ∈ front ∧ front.Nodup

theorem FirstRepeated.not_nodup {texts : List String} {text : String}
    (repeated : FirstRepeated texts text) : ¬texts.Nodup := by
  obtain ⟨front, back, rfl, again, _⟩ := repeated
  intro distinct
  exact (List.nodup_append.mp distinct).2.2 text again text (by simp) rfl

theorem split_of_repeated {seen texts : List String} {text : String}
    (found : repeated? seen texts = some text) :
    ∃ front back, texts = front ++ text :: back ∧ text ∈ seen ++ front ∧ front.Nodup ∧
      ∀ other ∈ front, other ∉ seen := by
  induction texts generalizing seen with
  | nil => simp [repeated?] at found
  | cons first texts ih =>
      rw [repeated?] at found
      by_cases again : first ∈ seen
      · rw [if_pos again] at found
        obtain rfl : first = text := Option.some.inj found
        exact ⟨[], texts, rfl, by simpa using again, List.nodup_nil, by simp⟩
      · rw [if_neg again] at found
        obtain ⟨front, back, rfl, before, distinct, fresh⟩ := ih found
        have notLater : first ∉ front := fun later => fresh first later (by simp)
        refine ⟨first :: front, back, rfl, ?_, List.nodup_cons.mpr ⟨notLater, distinct⟩, ?_⟩
        · simp only [List.mem_append, List.mem_cons] at before ⊢
          tauto
        · intro other member
          rcases List.mem_cons.mp member with rfl | later
          · exact again
          · exact fun known => fresh other later (List.mem_cons_of_mem _ known)

theorem firstRepeated_of_repeated {texts : List String} {text : String}
    (found : repeated? [] texts = some text) : FirstRepeated texts text := by
  obtain ⟨front, back, split, again, distinct, _⟩ := split_of_repeated found
  exact ⟨front, back, split, by simpa using again, distinct⟩

theorem nodup_of_repeated {seen texts : List String} (unrepeated : repeated? seen texts = none) :
    texts.Nodup ∧ ∀ text ∈ texts, text ∉ seen := by
  induction texts generalizing seen with
  | nil => simp
  | cons text texts ih =>
      rw [repeated?] at unrepeated
      split at unrepeated
      · simp at unrepeated
      · rename_i fresh
        obtain ⟨distinct, others⟩ := ih unrepeated
        refine ⟨List.nodup_cons.mpr ⟨fun again => others text again (by simp), distinct⟩, ?_⟩
        intro other member
        rcases List.mem_cons.mp member with rfl | later
        · exact fresh
        · exact fun known => others other later (List.mem_cons_of_mem _ known)

end Repetition

/-- Among the types, a base means the one of its name; or, if there is none and the base is one segment,
the only one whose name ends in that segment. -/
def Means (types : List Declared) (base : DottedName) (type : Declared) : Prop :=
  type ∈ types ∧
    (type.name.text = base.text ∨
      (∀ other ∈ types, other.name.text ≠ base.text) ∧ base.size = 1 ∧
        ∀ other ∈ types, other.name.simple = base.simple ↔ other = type)

def Inherits (types : List Declared) (type above : Declared) : Prop :=
  type ∈ types ∧ ∃ base, type.decl.base? = some base ∧ Means types base above

theorem Means.congr {types others : List Declared} (same : ∀ type, type ∈ types ↔ type ∈ others)
    {base : DottedName} {type : Declared} (means : Means types base type) : Means others base type := by
  obtain ⟨member, isNamed | ⟨unnamed, single, only⟩⟩ := means
  · exact ⟨(same type).mp member, .inl isNamed⟩
  · refine ⟨(same type).mp member, .inr ⟨?_, single, ?_⟩⟩
    · exact fun other isOther => unnamed other ((same other).mpr isOther)
    · exact fun other isOther => only other ((same other).mpr isOther)

theorem inherits_congr {types others : List Declared} (same : ∀ type, type ∈ types ↔ type ∈ others) :
    Inherits types = Inherits others := by
  funext type above
  apply propext
  constructor
  · rintro ⟨member, base, isBase, means⟩
    exact ⟨(same type).mp member, base, isBase, means.congr same⟩
  · rintro ⟨member, base, isBase, means⟩
    exact ⟨(same type).mpr member, base, isBase, means.congr fun type => (same type).symm⟩

section Search

variable {types : List Declared} (distinct : (types.map (·.name.text)).Nodup)

theorem placesOf_eq_singleton_iff {simple : String} {place : Fin types.length} :
    placesOf types simple = [place] ↔ ∀ other, (types.get other).name.simple = simple ↔ other = place := by
  have member (other : Fin types.length) :
      other ∈ placesOf types simple ↔ (types.get other).name.simple = simple := by simp [placesOf]
  constructor
  · intro single other
    rw [← member, single, List.mem_singleton]
  · intro only
    have nodup : (placesOf types simple).Nodup := (List.nodup_finRange _).filter _
    apply List.perm_singleton.mp
    rw [List.perm_ext_iff_of_nodup nodup (List.nodup_singleton place)]
    intro other
    rw [member, only, List.mem_singleton]

include distinct

theorem eq_of_text_eq {type other : Declared} (member : type ∈ types) (isOther : other ∈ types)
    (same : type.name.text = other.name.text) : type = other :=
  List.inj_on_of_nodup_map distinct member isOther same

theorem get_injective : Function.Injective types.get :=
  List.nodup_iff_injective_get.mp (List.Nodup.of_map _ distinct)

theorem means_iff_of_named {base : DottedName} {found place : Fin types.length}
    (isNamed : (types.get found).name.text = base.text) :
    Means types base (types.get place) ↔ found = place := by
  constructor
  · rintro ⟨member, alsoNamed | ⟨unnamed, _⟩⟩
    · apply get_injective distinct
      exact eq_of_text_eq distinct (types.get_mem found) member (isNamed.trans alsoNamed.symm)
    · exact absurd isNamed (unnamed _ (types.get_mem found))
  · rintro rfl
    exact ⟨types.get_mem found, .inl isNamed⟩

theorem means_iff_of_unnamed {base : DottedName} {place : Fin types.length}
    (unnamed : ∀ other ∈ types, other.name.text ≠ base.text) :
    Means types base (types.get place) ↔ base.size = 1 ∧ placesOf types base.simple = [place] := by
  rw [placesOf_eq_singleton_iff]
  constructor
  · rintro ⟨member, isNamed | ⟨_, single, only⟩⟩
    · exact absurd isNamed (unnamed _ member)
    · refine ⟨single, fun other => ?_⟩
      rw [only _ (types.get_mem other), (get_injective distinct).eq_iff]
  · rintro ⟨single, only⟩
    refine ⟨types.get_mem place, .inr ⟨unnamed, single, fun other isOther => ?_⟩⟩
    obtain ⟨otherPlace, rfl⟩ := List.get_of_mem isOther
    rw [only, (get_injective distinct).eq_iff]

theorem resolve?_eq_some_iff {base : DottedName} {place : Fin types.length} :
    resolve? types base = some place ↔ Means types base (types.get place) := by
  rw [resolve?]
  split
  · rename_i found search
    have isNamed : (types.get found).name.text = base.text := by
      simpa using (List.findFinIdx?_eq_some_iff.mp search).1
    rw [means_iff_of_named distinct isNamed, Option.some.injEq]
  · rename_i search
    have unnamed : ∀ other ∈ types, other.name.text ≠ base.text := by
      simpa using List.findFinIdx?_eq_none_iff.mp search
    have positive : 0 < base.size := List.length_pos_iff.mpr base.segments_ne_nil
    have qualified : base.isQualified ↔ 1 < base.size := by simp [DottedName.isQualified]
    rw [means_iff_of_unnamed distinct unnamed]
    by_cases many : base.isQualified
    · have size := qualified.mp many
      rw [if_pos many]
      constructor
      · intro found
        cases found
      · rintro ⟨single, _⟩
        omega
    · have single : base.size = 1 := by
        have few := mt qualified.mpr many
        omega
      rw [if_neg many]
      rcases placesOf types base.simple with _ | ⟨only, _ | ⟨second, places⟩⟩ <;> simp [single]

theorem parent?_eq_some_iff {place above : Fin types.length} :
    parent? types place = some above ↔ Inherits types (types.get place) (types.get above) := by
  simp only [parent?, Option.bind_eq_bind, Option.bind_eq_some_iff, resolve?_eq_some_iff distinct]
  exact ⟨fun found => ⟨types.get_mem place, found⟩, fun inherits => inherits.2⟩

end Search

end Beagle.Inheritance

namespace Beagle.SourceUnit

open Inheritance

theorem entries_cases (unit : SourceUnit) :
    (∃ text, FirstRepeated (unit.declared.map (·.name.text)) text ∧
      unit.entries = .error (.duplicate text)) ∨
    ((unit.declared.map (·.name.text)).Nodup ∧
      ((∃ place, order (parent? unit.declared) (List.finRange _) = .error place ∧
        unit.entries = .error (.cycle (unit.declared.get place).name.text)) ∨
      ∃ places, order (parent? unit.declared) (List.finRange _) = .ok places ∧
        unit.entries = .ok (places.map (entry unit.declared)))) := by
  rw [entries]
  cases found : repeated? [] (unit.declared.map (·.name.text)) with
  | some text => exact .inl ⟨text, firstRepeated_of_repeated found, rfl⟩
  | none =>
      refine .inr ⟨(nodup_of_repeated found).1, ?_⟩
      cases ordered : order (parent? unit.declared) (List.finRange unit.declared.length) with
      | error place => exact .inl ⟨place, rfl, rfl⟩
      | ok places => exact .inr ⟨places, rfl, rfl⟩

theorem order_of_entries {unit : SourceUnit} {entries : List Entry} (found : unit.entries = .ok entries) :
    (unit.declared.map (·.name.text)).Nodup ∧
      ∃ places, order (parent? unit.declared) (List.finRange _) = .ok places ∧
        entries = places.map (entry unit.declared) := by
  rcases unit.entries_cases with ⟨_, _, failed⟩ | ⟨distinct, ⟨_, _, failed⟩ | ⟨places, ordered, result⟩⟩
  · simp [failed] at found
  · simp [failed] at found
  · exact ⟨distinct, places, ordered, Except.ok.inj (found.symm.trans result)⟩

def ofClasses (classes : List (String × List String)) : SourceUnit where
  info := .fresh 0 ⟨1, 1⟩
  file := "a.bgl"
  package := none
  imports := []
  types := classes.map fun described =>
    { info := ⟨1, ⟨1, 1⟩, some 0⟩
      annotations := []
      modifiers := none
      name := .single described.1
      bases := described.2.map fun base => ⟨⟨2, ⟨1, 1⟩, some 1⟩, .single base⟩
      body := none }

end Beagle.SourceUnit
