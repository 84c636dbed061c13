import Beagle.Compile
import Beagle.Proofs.AncestorOrder
import Beagle.Proofs.Likeness.Mask
import Beagle.Proofs.Likeness.Rule
import Beagle.Proofs.SketchLines
import Mathlib.Data.List.Basic

/-!
Nothing that is generated shows an id or a place.  The order of types is found in terms of where they
stand in the unit, and stays the same if every type is replaced by one with the same name and bases.
-/

namespace Beagle

namespace Inheritance

section Relabelling

variable {α β γ δ : Type} [DecidableEq α] [DecidableEq β]

def relabel (image : α → β) (view : γ → δ) : Except α γ → Except β δ
  | .ok found => .ok (view found)
  | .error item => .error (image item)

def Progress.relabelled (image : α → β) (progress : Progress α) : Progress β :=
  ⟨progress.placed.map image, progress.unseen.map image⟩

variable {image : α → β} {parent : α → Option α} {parentImage : β → Option β}
variable (injective : Function.Injective image)
variable (commutes : ∀ item, parentImage (image item) = (parent item).map image)

include injective commutes

theorem visit_relabelled (progress : Progress α) (item : α) :
    visit parentImage (progress.relabelled image) (image item) =
      relabel image (Progress.relabelled image) (visit parent progress item) := by
  have placed (progress : Progress α) (item : α) :
      image item ∈ (progress.relabelled image).placed ↔ item ∈ progress.placed :=
    List.mem_map_of_injective injective
  have unseen (progress : Progress α) (item : α) :
      image item ∈ (progress.relabelled image).unseen ↔ item ∈ progress.unseen :=
    List.mem_map_of_injective injective
  have enter (progress : Progress α) (item : α) :
      (progress.relabelled image).enter (image item) = (progress.enter item).relabelled image := by
    simp [Progress.enter, Progress.relabelled, List.map_erase injective]
  have place (progress : Progress α) (item : α) :
      (progress.relabelled image).place (image item) = (progress.place item).relabelled image := by
    simp [Progress.place, Progress.relabelled]
  induction progress, item using visit.induct parent with
  | case1 progress item isPlaced =>
      rw [visit_placed isPlaced]
      exact visit_placed ((placed progress item).mpr isPlaced)
  | case2 progress item unplaced fresh shorter entered above isParent ih =>
      have moved : parentImage (image item) = some (image above) := by rw [commutes, isParent]; rfl
      have below : visit parentImage ((progress.enter item).relabelled image) (image above) =
          relabel image (Progress.relabelled image) (visit parent (progress.enter item) above) := ih
      rw [visit_above unplaced fresh isParent, visit_above (mt (placed progress item).mp unplaced)
        ((unseen progress item).mpr fresh) moved, enter, below]
      cases visit parent (progress.enter item) above with
      | error cyclic => rfl
      | ok after => exact congrArg Except.ok (place after item)
  | case3 progress item unplaced fresh shorter isRoot =>
      have moved : parentImage (image item) = none := by rw [commutes, isRoot]; rfl
      rw [visit_root unplaced fresh isRoot, visit_root (mt (placed progress item).mp unplaced)
        ((unseen progress item).mpr fresh) moved, enter, place]
      rfl
  | case4 progress item unplaced seen =>
      rw [visit_again unplaced seen]
      exact visit_again (mt (placed progress item).mp unplaced) (mt (unseen progress item).mp seen)

theorem visits_relabelled (items : List α) (progress : Progress α) :
    (items.map image).foldlM (visit parentImage) (progress.relabelled image) =
      relabel image (Progress.relabelled image) (items.foldlM (visit parent) progress) := by
  induction items generalizing progress with
  | nil => rfl
  | cons item items ih =>
      rw [List.map_cons, List.foldlM_cons, List.foldlM_cons, visit_relabelled injective commutes]
      cases visit parent progress item with
      | error cyclic => rfl
      | ok after => exact ih after

/-- Other labels do not change the order that is found, or the item that is its own ancestor. -/
theorem order_relabelled (items : List α) :
    order parentImage (items.map image) = relabel image (List.map image) (order parent items) := by
  have visits := visits_relabelled injective commutes items ⟨[], items⟩
  unfold order
  change ((items.map image).foldlM (visit parentImage) (Progress.relabelled image ⟨[], items⟩) >>= _) = _
  rw [visits]
  cases items.foldlM (visit parent) ⟨[], items⟩ with
  | error cyclic => rfl
  | ok after => rfl

end Relabelling

end Inheritance

section Masking

variable (mask : Mask)

def Declared.masked (type : Declared) : Declared :=
  { type with decl := type.decl.masked mask }

def Entry.masked (entry : Entry) : Entry :=
  { entry with decl := entry.decl.masked mask }

theorem TypeDecl.base?_masked (decl : TypeDecl) : (decl.masked mask).base? = decl.base? := by
  rw [base?, base?, masked, List.head?_map, Option.map_map]
  rfl

namespace Inheritance

def samePlace (types : List Declared) (place : Fin types.length) :
    Fin (types.map (Declared.masked mask)).length :=
  place.cast (List.length_map _).symm

theorem samePlace_injective (types : List Declared) : Function.Injective (samePlace mask types) :=
  Fin.cast_injective (List.length_map _).symm

theorem map_samePlace_finRange (types : List Declared) :
    (List.finRange types.length).map (samePlace mask types) =
      List.finRange (types.map (Declared.masked mask)).length := by
  have recast {count other : Nat} (same : count = other) :
      (List.finRange count).map (Fin.cast same) = List.finRange other := by
    subst same
    simp
  exact recast (List.length_map _).symm

theorem get_samePlace (types : List Declared) (place : Fin types.length) :
    (types.map (Declared.masked mask)).get (samePlace mask types place) =
      (types.get place).masked mask := by
  simp [samePlace]

theorem findFinIdx?_masked (types : List Declared) (text : String) :
    (types.map (Declared.masked mask)).findFinIdx? (fun type => type.name.text = text) =
      (types.findFinIdx? fun type => type.name.text = text).map (samePlace mask types) := by
  refine Option.map_injective Fin.val_injective ?_
  rw [Option.map_map, ← List.findIdx?_eq_map_findFinIdx?_val, List.findIdx?_map]
  exact List.findIdx?_eq_map_findFinIdx?_val

theorem placesOf_masked (types : List Declared) (simple : String) :
    placesOf (types.map (Declared.masked mask)) simple =
      (placesOf types simple).map (samePlace mask types) := by
  rw [placesOf, placesOf, ← map_samePlace_finRange, List.filter_map]
  refine congrArg _ (List.filter_congr fun place _ => ?_)
  rw [Function.comp_apply, get_samePlace]
  rfl

theorem resolve?_masked (types : List Declared) (base : DottedName) :
    resolve? (types.map (Declared.masked mask)) base =
      (resolve? types base).map (samePlace mask types) := by
  rw [resolve?, resolve?, findFinIdx?_masked, placesOf_masked]
  cases types.findFinIdx? fun type => type.name.text = base.text with
  | some place => rfl
  | none =>
      cases base.isQualified with
      | true => rfl
      | false =>
          rcases placesOf types base.simple with _ | ⟨place, _ | ⟨other, places⟩⟩ <;> rfl

theorem parent?_masked (types : List Declared) (place : Fin types.length) :
    parent? (types.map (Declared.masked mask)) (samePlace mask types place) =
      (parent? types place).map (samePlace mask types) := by
  rw [parent?, parent?, get_samePlace, Declared.masked, TypeDecl.base?_masked]
  cases (types.get place).decl.base? with
  | none => rfl
  | some base => exact resolve?_masked mask types base

theorem entry_masked (types : List Declared) (place : Fin types.length) :
    entry (types.map (Declared.masked mask)) (samePlace mask types place) =
      (entry types place).masked mask := by
  have moved := parent?_masked mask types place
  cases above : parent? types place with
  | none =>
      simp only [entry, Entry.masked, moved, above, Option.map_none, get_samePlace, Declared.masked,
        TypeDecl.base?_masked]
  | some other =>
      simp only [entry, Entry.masked, moved, above, Option.map_some, get_samePlace, Declared.masked]

end Inheritance

namespace SourceUnit

theorem packageName_masked (unit : SourceUnit) : (unit.masked mask).packageName = unit.packageName := by
  rw [packageName, packageName, masked, Option.map_map]
  rfl

theorem declared_masked (unit : SourceUnit) :
    (unit.masked mask).declared = unit.declared.map (Declared.masked mask) := by
  rw [declared, declared, masked, List.map_map, List.map_map]
  refine List.map_congr_left fun decl _ => ?_
  exact congrArg (Declared.mk _ <| decl.name.resolve ·) (packageName_masked mask unit)

theorem entries_masked (unit : SourceUnit) :
    (unit.masked mask).entries = unit.entries.map (List.map (Entry.masked mask)) := by
  have names : (unit.declared.map (Declared.masked mask)).map (·.name.text) =
      unit.declared.map (·.name.text) := by
    rw [List.map_map]
    rfl
  have ordered := Inheritance.order_relabelled (Inheritance.samePlace_injective mask unit.declared)
    (Inheritance.parent?_masked mask unit.declared) (List.finRange unit.declared.length)
  rw [Inheritance.map_samePlace_finRange] at ordered
  rw [entries, entries, declared_masked, names, ordered]
  cases Inheritance.repeated? [] (unit.declared.map (·.name.text)) with
  | some name => rfl
  | none =>
      cases Inheritance.order (Inheritance.parent? unit.declared) _ with
      | error place =>
          have named := congrArg Declared.name (Inheritance.get_samePlace mask unit.declared place)
          exact congrArg (fun name => Except.error (InheritanceError.cycle name.text)) named
      | ok places =>
          refine congrArg Except.ok ?_
          rw [List.map_map, List.map_map]
          exact List.map_congr_left fun place _ => Inheritance.entry_masked mask unit.declared place

end SourceUnit

namespace Layout

theorem furtherBases_masked (decl : TypeDecl) : furtherBases (decl.masked mask) = furtherBases decl := by
  have dropped : (decl.masked mask).bases.drop 1 = (decl.bases.drop 1).map (TypeRef.masked mask) :=
    List.map_drop.symm
  rw [furtherBases, furtherBases, dropped]
  cases decl.bases.drop 1 with
  | nil => rfl
  | cons base bases => simp [TypeRef.masked, Function.comp_def]

theorem ofEntry_masked (entry : Entry) : ofEntry (entry.masked mask) = ofEntry entry := by
  rw [ofEntry, ofEntry, staticRecord, staticRecord, Entry.masked, furtherBases_masked]
  rfl

theorem ofEntries_masked (header : String) (entries : List Entry) :
    ofEntries header (entries.map (Entry.masked mask)) = ofEntries header entries := by
  rw [ofEntries, ofEntries, List.flatMap_map]
  simp only [ofEntry_masked]

end Layout

theorem SourceUnit.layout_masked (unit : SourceUnit) (header : String) :
    (unit.masked mask).layout header = unit.layout header := by
  rw [layout, layout, entries_masked]
  cases unit.entries with
  | error error => rfl
  | ok entries =>
      exact congrArg (fun lines => Except.ok (Fragment.renderAll lines))
        (Layout.ofEntries_masked mask header entries)

namespace Sketch

theorem slotType_masked (field : Field) (declarator : Declarator) :
    slotType (field.masked mask) (declarator.masked mask) = slotType field declarator := by
  rw [slotType, slotType, Field.masked, Declarator.masked]
  cases field.type <;> cases declarator.initial <;> rfl

theorem slots_masked (decl : TypeDecl) : slots (decl.masked mask) = slots decl := by
  rw [slots, slots, TypeDecl.masked]
  cases decl.body with
  | none => rfl
  | some body =>
      have fields (field : Field) : (field.masked mask).declarators.map (slotType (field.masked mask)) =
          field.declarators.map (slotType field) := by
        rw [Field.masked, List.map_map]
        exact List.map_congr_left fun declarator _ => slotType_masked mask field declarator
      simp only [Option.map_some, Option.elim_some, Body.masked, List.flatMap_map, fields]

theorem typeSection_masked (name : String) (decl : TypeDecl) :
    typeSection name (decl.masked mask) = typeSection name decl := by
  have methods : (methodsOf (decl.masked mask)).flatMap (fun method => methodLines name method.name) =
      (methodsOf decl).flatMap fun method => methodLines name method.name := by
    rw [methodsOf, methodsOf, TypeDecl.masked]
    cases decl.body with
    | none => rfl
    | some body => simp [Body.masked, Method.masked, List.flatMap_map]
  rw [typeSection, typeSection, methods, typeLines, typeLines, slots_masked]

theorem unitLines_masked (unit : SourceUnit) : unitLines (unit.masked mask) = unitLines unit := by
  have named : (unit.masked mask).moduleName = unit.moduleName := by
    rw [SourceUnit.moduleName, SourceUnit.moduleName, SourceUnit.packageName_masked]
    rfl
  have types (decl : TypeDecl) : ((unit.masked mask).nameOf (decl.masked mask)).text =
      (unit.nameOf decl).text := by
    rw [SourceUnit.nameOf, SourceUnit.nameOf, SourceUnit.packageName_masked]
    rfl
  have listed : (unit.masked mask).types = unit.types.map (TypeDecl.masked mask) := rfl
  rw [unitLines, unitLines, named, listed, List.flatMap_map]
  simp only [types, typeSection_masked]

end Sketch

end Masking

theorem SourceUnit.WellFormed.generate_eq {first second : SourceUnit} {low high bottom top : Nat}
    {mask : Mask} (firstFormed : first.WellFormed low high) (secondFormed : second.WellFormed bottom top)
    (same : first.masked mask = second.masked mask) (settings : Settings) :
    first.generate settings = second.generate settings := by
  unfold generate
  cases settings.emit with
  | layout =>
      have layouts : first.layout settings.header = second.layout settings.header := by
        rw [← layout_masked mask first, same, layout_masked mask second]
      exact congrArg (Except.mapError CompileError.inheritance) layouts
  | sketch =>
      rw [firstFormed.sketch_eq, secondFormed.sketch_eq, ← Sketch.unitLines_masked mask first, same,
        Sketch.unitLines_masked mask second]

theorem State.generate_eq_of_outcome {σ τ : Type} [TokenSource σ] [TokenSource τ] {mask : Mask}
    {left : State σ} {right : State τ} {unit other : SourceUnit}
    (same : Stop.outcome mask (SourceUnit.masked mask) left.parse.1 =
      Stop.outcome mask (SourceUnit.masked mask) right.parse.1)
    (isUnit : left.parse.1 = .ok unit) (isOther : right.parse.1 = .ok other) (settings : Settings) :
    unit.generate settings = other.generate settings := by
  rw [isUnit, isOther] at same
  have formed := unit.wellFormed_of_reading (left.reading_of_parse isUnit)
  have otherFormed := other.wellFormed_of_reading (right.reading_of_parse isOther)
  exact formed.generate_eq otherFormed (Except.ok.inj same) settings

end Beagle
