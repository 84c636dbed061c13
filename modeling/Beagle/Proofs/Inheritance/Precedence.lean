import Beagle.Proofs.Inheritance.Cycles
import Mathlib.Data.Prod.Lex
import Mathlib.Order.Bounds.Basic

/-!
Which type comes before which.  A visit adds the ancestors of an item that are not there yet, so the
items that lead up to an early one come early, and among those that the same visit adds the higher ones
come first.
-/

namespace Beagle.Inheritance

open Relation

section Depth

variable {α : Type} {below : α → α → Prop}

inductive Depth (below : α → α → Prop) : α → Nat → Prop
  | top {item : α} (isTop : ∀ above, ¬below item above) : Depth below item 0
  | under {item above : α} {depth : Nat} (isBelow : below item above) (higher : Depth below above depth) :
      Depth below item (depth + 1)

variable (functional : Relator.RightUnique below)

include functional

theorem Depth.unique {item : α} {depth other : Nat} (one : Depth below item depth)
    (two : Depth below item other) : depth = other := by
  induction one generalizing other with
  | top isTop =>
      cases two with
      | top => rfl
      | under isBelow _ => exact absurd isBelow (isTop _)
  | under isBelow _ ih =>
      cases two with
      | top isTop => exact absurd isBelow (isTop _)
      | under alsoBelow higher =>
          obtain rfl := functional isBelow alsoBelow
          rw [ih higher]

theorem Depth.lt_of_transGen {lower higher : α} {depth other : Nat}
    (ancestor : TransGen below lower higher) (isHigher : Depth below higher depth)
    (isLower : Depth below lower other) : depth < other := by
  induction ancestor using TransGen.head_induction_on generalizing other with
  | single isBelow =>
      have isNext := isLower.unique functional (.under isBelow isHigher)
      omega
  | head isBelow _ ih =>
      cases isLower with
      | top isTop => exact absurd isBelow (isTop _)
      | under alsoBelow isMiddle =>
          obtain rfl := functional isBelow alsoBelow
          have smaller := ih isMiddle
          omega

end Depth

theorem idxOf_lt_idxOf_iff {α β : Type} [DecidableEq α] [Preorder β] {key : α → β} {items : List α}
    (sorted : items.Pairwise fun item other => key item < key other) {item other : α}
    (member : item ∈ items) (isOther : other ∈ items) :
    items.idxOf item < items.idxOf other ↔ key item < key other := by
  have increasing {item other : α} (member : item ∈ items) (isOther : other ∈ items)
      (before : items.idxOf item < items.idxOf other) : key item < key other := by
    have related := List.pairwise_iff_getElem.mp sorted _ _ (List.idxOf_lt_length_of_mem member)
      (List.idxOf_lt_length_of_mem isOther) before
    rwa [List.getElem_idxOf, List.getElem_idxOf] at related
  constructor
  · exact increasing member isOther
  · intro smaller
    rcases Nat.lt_trichotomy (items.idxOf item) (items.idxOf other) with before | same | after
    · exact before
    · obtain rfl := (List.idxOf_inj member).mp same
      exact absurd smaller (lt_irrefl _)
    · exact absurd smaller (increasing isOther member after).asymm

section Visits

variable {count : Nat} {parent : Fin count → Option (Fin count)}

def IsFirst (below : Fin count → Fin count → Prop) (item first : Fin count) : Prop :=
  IsLeast {other | ReflTransGen below other item} first

/-- An earlier item leads up to the one than to the other; or the same does, and the one is above the
other. -/
def Precedes (below : Fin count → Fin count → Prop) (item other : Fin count) : Prop :=
  ∃ first second, IsFirst below item first ∧ IsFirst below other second ∧
    (first < second ∨ first = second ∧ TransGen below other item)

structure Sorted (parent : Fin count → Option (Fin count)) (visited : List (Fin count))
    (progress : Progress (Fin count)) : Prop where
  sound : progress.Sound parent
  holds : visited ⊆ progress.placed
  reached : ∀ item ∈ progress.placed, ∃ first ∈ visited, IsFirst (Below parent) item first
  pairwise : progress.placed.Pairwise (Precedes (Below parent))

theorem AncestorsFirst.mem_of_reflTransGen {α : Type} {parent : α → Option α} {items : List α}
    (first : AncestorsFirst parent items) {item above : α} (member : item ∈ items)
    (ancestor : ReflTransGen (Below parent) item above) : above ∈ items := by
  induction ancestor with
  | refl => exact member
  | tail _ below ih =>
      obtain ⟨front, back, split⟩ := List.append_of_mem ih
      rw [split]
      exact List.mem_append_left _ (first front _ back split _ below)

theorem mem_visited_iff {visited rest : List (Fin count)} {item : Fin count}
    (split : List.finRange count = visited ++ item :: rest) (other : Fin count) :
    other ∈ visited ↔ other < item := by
  have increasing := List.pairwise_lt_finRange count
  rw [split, List.pairwise_append, List.pairwise_cons] at increasing
  obtain ⟨_, ⟨later, _⟩, before⟩ := increasing
  constructor
  · exact fun member => before other member item List.mem_cons_self
  · intro smaller
    have member : other ∈ visited ++ item :: rest := split ▸ List.mem_finRange other
    rcases List.mem_append.mp member with earlier | behind
    · exact earlier
    · rcases List.mem_cons.mp behind with rfl | inRest
      · exact absurd smaller (lt_irrefl _)
      · exact absurd smaller (later other inRest).asymm

theorem isFirst_of_trail {visited rest : List (Fin count)} {progress after : Progress (Fin count)}
    {item : Fin count} {trail : List (Fin count)} (sorted : Sorted parent visited progress)
    (split : List.finRange count = visited ++ item :: rest)
    (found : Trail parent progress after item trail) {other : Fin count} (member : other ∈ trail) :
    IsFirst (Below parent) other item := by
  refine ⟨found.reached other member, ?_⟩
  intro start leadsUp
  by_contra earlier
  have placed := sorted.holds ((mem_visited_iff split start).mpr (not_le.mp earlier))
  exact found.fresh other member (sorted.sound.ancestors.mem_of_reflTransGen placed leadsUp)

theorem Sorted.visit {visited rest : List (Fin count)} {progress after : Progress (Fin count)}
    {item : Fin count} (sorted : Sorted parent visited progress)
    (split : List.finRange count = visited ++ item :: rest)
    (ran : visit parent progress item = .ok after) : Sorted parent (visited ++ [item]) after := by
  obtain ⟨sound, extends_, isPlaced⟩ := sound_of_visit ran sorted.sound
  obtain ⟨trail, found⟩ := trail_of_visit ran
  have isFirst {other : Fin count} (member : other ∈ trail) : IsFirst (Below parent) other item :=
    isFirst_of_trail sorted split found member
  refine ⟨sound, ?_, ?_, ?_⟩
  · exact List.append_subset.mpr ⟨List.Subset.trans sorted.holds extends_.placed, by simpa using isPlaced⟩
  · intro other member
    rw [found.placed] at member
    rcases List.mem_append.mp member with old | new
    · obtain ⟨first, isVisited, leads⟩ := sorted.reached other old
      exact ⟨first, List.mem_append_left _ isVisited, leads⟩
    · exact ⟨item, by simp, isFirst new⟩
  · rw [found.placed, List.pairwise_append]
    refine ⟨sorted.pairwise, ?_, ?_⟩
    · refine found.descending.imp_of_mem fun {higher lower} isHigher isLower ancestor => ?_
      exact ⟨item, item, isFirst isHigher, isFirst isLower, .inr ⟨rfl, ancestor⟩⟩
    · intro old isOld new isNew
      obtain ⟨first, isVisited, leads⟩ := sorted.reached old isOld
      exact ⟨first, item, leads, isFirst isNew, .inl ((mem_visited_iff split first).mp isVisited)⟩

theorem Sorted.visits {visited rest : List (Fin count)} {progress after : Progress (Fin count)}
    (sorted : Sorted parent visited progress) (split : List.finRange count = visited ++ rest)
    (ran : rest.foldlM (Inheritance.visit parent) progress = .ok after) :
    Sorted parent (List.finRange count) after := by
  induction rest generalizing visited progress with
  | nil =>
      obtain rfl : progress = after := Except.ok.inj ran
      rwa [split, List.append_nil]
  | cons item rest ih =>
      obtain ⟨middle, first, later⟩ := visits_eq_ok_iff.mp ran
      exact ih (sorted.visit split first) (by simpa using split) later

theorem sorted_of_order {places : List (Fin count)}
    (ordered : order parent (List.finRange count) = .ok places) :
    ∃ unseen, Sorted parent (List.finRange count) ⟨places, unseen⟩ := by
  obtain ⟨unseen, visited⟩ := order_eq_ok_iff.mp ordered
  have start : Sorted parent [] ⟨[], List.finRange count⟩ :=
    ⟨⟨List.nodup_finRange count, by simp [AncestorsFirst]⟩, by simp, by simp, .nil⟩
  exact ⟨unseen, start.visits (List.nil_append _).symm visited⟩

theorem AncestorsFirst.exists_depth {α : Type} [DecidableEq α] {parent : α → Option α} {items : List α}
    (first : AncestorsFirst parent items) (all : ∀ item, item ∈ items) (item : α) :
    ∃ depth, Depth (Below parent) item depth := by
  induction position : items.idxOf item using Nat.strong_induction_on generalizing item with
  | _ position ih =>
      cases isParent : parent item with
      | none => exact ⟨0, .top fun above below => by simp [Below, isParent] at below⟩
      | some above =>
          have before := first.idxOf_lt all (.single (show Below parent item above from isParent))
          obtain ⟨depth, higher⟩ := ih _ (position ▸ before) above rfl
          exact ⟨depth + 1, .under isParent higher⟩

theorem rightUnique_below {α : Type} (parent : α → Option α) : Relator.RightUnique (Below parent) := by
  intro item above other isAbove isOther
  exact Option.some.inj (isAbove.symm.trans isOther)

/-- Items come in the order of the first item that leads up to them, and then of their depth. -/
theorem order_keys {places : List (Fin count)}
    (ordered : order parent (List.finRange count) = .ok places) :
    ∃ (first : Fin count → Fin count) (depth : Fin count → Nat),
      (∀ item, IsFirst (Below parent) item (first item)) ∧
      (∀ item, Depth (Below parent) item (depth item)) ∧
      places.Pairwise fun item other => toLex (first item, depth item) < toLex (first other, depth other) := by
  obtain ⟨perm, ancestors⟩ := perm_of_order ordered (List.nodup_finRange count)
  obtain ⟨unseen, sorted⟩ := sorted_of_order ordered
  have all (item : Fin count) : item ∈ places := perm.mem_iff.mpr (List.mem_finRange item)
  have exists_first (item : Fin count) : ∃ first, IsFirst (Below parent) item first := by
    obtain ⟨first, _, isFirst⟩ := sorted.reached item (all item)
    exact ⟨first, isFirst⟩
  choose first isFirst using exists_first
  choose depth isDepth using ancestors.exists_depth all
  refine ⟨first, depth, isFirst, isDepth, sorted.pairwise.imp fun {item other} precedes => ?_⟩
  obtain ⟨start, second, isStart, isSecond, earlier⟩ := precedes
  obtain rfl := isStart.unique (isFirst item)
  obtain rfl := isSecond.unique (isFirst other)
  refine Prod.Lex.toLex_lt_toLex.mpr (earlier.imp_right fun ⟨same, ancestor⟩ => ⟨same, ?_⟩)
  exact (isDepth item).lt_of_transGen (rightUnique_below parent) ancestor (isDepth other)

theorem eq_finRange_of_order {places : List (Fin count)}
    (ordered : order parent (List.finRange count) = .ok places)
    (before : ∀ item above, Below parent item above → above < item) : places = List.finRange count := by
  obtain ⟨perm, _⟩ := perm_of_order ordered (List.nodup_finRange count)
  obtain ⟨first, depth, isFirst, _, sorted⟩ := order_keys ordered
  have itself (item : Fin count) : first item = item := by
    refine (isFirst item).unique ⟨.refl, fun other leadsUp => ?_⟩
    induction leadsUp using ReflTransGen.head_induction_on with
    | refl => exact le_refl item
    | head below _ ih => exact ih.trans (before _ _ below).le
  have increasing : places.Pairwise (· < ·) := by
    refine sorted.imp fun {item other} smaller => ?_
    rcases Prod.Lex.toLex_lt_toLex.mp smaller with earlier | ⟨same, deeper⟩
    · rwa [itself, itself] at earlier
    · obtain rfl : item = other := by rwa [itself, itself] at same
      exact absurd deeper (lt_irrefl _)
  exact perm.eq_of_pairwise (fun _ _ _ _ one two => absurd two one.asymm) increasing
    (List.pairwise_lt_finRange count)

end Visits

section Types

variable {types : List Declared}

def InheritsAt (types : List Declared) (place above : Fin types.length) : Prop :=
  Inherits types (types.get place) (types.get above)

theorem below_parent? (distinct : (types.map (·.name.text)).Nodup) :
    Below (parent? types) = InheritsAt types := by
  funext place above
  exact propext (parent?_eq_some_iff distinct)

/-- How the places of types are put in order: each once, behind its ancestors, by the first place that
leads up to it and then by its depth. -/
structure InOrder (types : List Declared) (places : List (Fin types.length)) : Prop where
  once : places.Perm (List.finRange types.length)
  ancestors : ∀ place above, TransGen (InheritsAt types) place above →
    places.idxOf above < places.idxOf place
  keyed : ∃ (first : Fin types.length → Fin types.length) (depth : Fin types.length → Nat),
    (∀ place, IsFirst (InheritsAt types) place (first place)) ∧
    (∀ place, Depth (InheritsAt types) place (depth place)) ∧
    ∀ place other, places.idxOf place < places.idxOf other ↔
      toLex (first place, depth place) < toLex (first other, depth other)

theorem inOrder_of_order {places : List (Fin types.length)}
    (distinct : (types.map (·.name.text)).Nodup)
    (ordered : order (parent? types) (List.finRange types.length) = .ok places) :
    InOrder types places := by
  obtain ⟨perm, ancestors⟩ := perm_of_order ordered (List.nodup_finRange _)
  have all (place : Fin types.length) : place ∈ places := perm.mem_iff.mpr (List.mem_finRange place)
  obtain ⟨first, depth, isFirst, isDepth, sorted⟩ := order_keys ordered
  rw [below_parent? distinct] at isFirst isDepth
  refine ⟨perm, ?_, first, depth, isFirst, isDepth, ?_⟩
  · rw [← below_parent? distinct]
    exact fun place above => ancestors.idxOf_lt all
  · exact fun place other => idxOf_lt_idxOf_iff sorted (all place) (all other)

theorem map_decl_entry (places : List (Fin types.length)) :
    (places.map (entry types)).map Entry.decl = (places.map types.get).map Declared.decl := by
  simp only [List.map_map]
  rfl

end Types

end Beagle.Inheritance

namespace Beagle.SourceUnit

open Inheritance

theorem map_decl_declared (unit : SourceUnit) : unit.declared.map Declared.decl = unit.types := by
  simp [declared, Function.comp_def]

/-- Types that can be put in order are generated once each and behind their ancestors: first come those
that the earliest declarations lead up to, and of those with the same such declaration, the higher ones.
Where parents are declared before their children, types are generated as they are declared. -/
theorem entries_ordered {unit : SourceUnit} {entries : List Entry} (found : unit.entries = .ok entries) :
    (entries.map Entry.decl).Perm unit.types ∧
    (∃ places, entries = places.map (entry unit.declared) ∧ InOrder unit.declared places) ∧
    ((∀ place above, InheritsAt unit.declared place above → above < place) →
      entries.map Entry.decl = unit.types) := by
  obtain ⟨distinct, places, ordered, rfl⟩ := order_of_entries found
  have inOrder := inOrder_of_order distinct ordered
  rw [map_decl_entry, ← unit.map_decl_declared]
  refine ⟨?_, ⟨places, rfl, inOrder⟩, ?_⟩
  · have same := (inOrder.once.map unit.declared.get).map Declared.decl
    rwa [List.map_get_finRange] at same
  · intro before
    rw [← below_parent? distinct] at before
    rw [eq_finRange_of_order ordered before, List.map_get_finRange]

/-- A type that is declared before its ancestors, with one between them that has none. -/
theorem entries_ordered_example :
    let unit := ofClasses [("Leaf", ["Mid"]), ("Other", []), ("Mid", ["Top"]), ("Top", [])]
    ∃ entries, unit.entries = .ok entries ∧
      entries.map (·.name.text) = ["Top", "Mid", "Leaf", "Other"] ∧
      ∃ places, entries = places.map (entry unit.declared) ∧ InOrder unit.declared places := by
  intro unit
  have names : (unit.entries.map fun entries => entries.map (·.name.text)) =
      .ok ["Top", "Mid", "Leaf", "Other"] := by decide +kernel
  match found : unit.entries with
  | .error error =>
      rw [found] at names
      cases names
  | .ok entries =>
      rw [found] at names
      exact ⟨entries, rfl, Except.ok.inj names, (entries_ordered found).2.1⟩

end Beagle.SourceUnit
