import Beagle.Proofs.Inheritance.Resolution
import Mathlib.Logic.Relation

/-!
Types that are their own ancestors.  While the ancestors of an item are looked at, every item that is
neither in order nor unseen leads up to it, so an item that is met again lies on a cycle; and items that
were all put in order have none.
-/

namespace Beagle.Inheritance

open Relation

section Visits

variable {α : Type} {parent : α → Option α}

def Below (parent : α → Option α) (item above : α) : Prop :=
  parent item = some above

/-- What a visit adds to the order: ancestors of the item that were not in it, from the top down. -/
structure Trail (parent : α → Option α) (before after : Progress α) (item : α) (trail : List α) :
    Prop where
  placed : after.placed = before.placed ++ trail
  known : after.known.Perm before.known
  fresh : ∀ other ∈ trail, other ∉ before.placed
  reached : ∀ other ∈ trail, ReflTransGen (Below parent) item other
  descending : trail.Pairwise fun higher lower => TransGen (Below parent) lower higher

theorem Trail.refl (progress : Progress α) (item : α) : Trail parent progress progress item [] :=
  ⟨by simp, .refl _, by simp, by simp, .nil⟩

variable [DecidableEq α]

open scoped List in
theorem Progress.known_place_perm {before middle : Progress α} {item : α} (fresh : item ∈ before.unseen)
    (known : middle.known.Perm (before.enter item).known) :
    (middle.place item).known.Perm before.known := by
  calc (middle.place item).known
      _ = middle.placed ++ item :: middle.unseen := by simp [Progress.known, Progress.place]
      _ ~ item :: middle.known := List.perm_middle
      _ ~ item :: (before.enter item).known := known.cons item
      _ ~ before.placed ++ item :: before.unseen.erase item := List.perm_middle.symm
      _ ~ before.known := (List.perm_cons_erase fresh).symm.append_left before.placed

theorem Trail.place {before middle : Progress α} {item : α} {trail : List α}
    (unplaced : item ∉ before.placed) (isFresh : item ∈ before.unseen)
    (placed : middle.placed = before.placed ++ trail)
    (known : middle.known.Perm (before.enter item).known)
    (fresh : ∀ other ∈ trail, other ∉ before.placed)
    (above : ∀ other ∈ trail, TransGen (Below parent) item other)
    (descending : trail.Pairwise fun higher lower => TransGen (Below parent) lower higher) :
    Trail parent before (middle.place item) item (trail ++ [item]) := by
  refine ⟨?_, Progress.known_place_perm isFresh known, ?_, ?_, ?_⟩
  · simp [Progress.place, placed]
  · intro other member
    rcases List.mem_append.mp member with inTrail | last
    · exact fresh other inTrail
    · rwa [List.mem_singleton.mp last]
  · intro other member
    rcases List.mem_append.mp member with inTrail | last
    · exact (above other inTrail).to_reflTransGen
    · rw [List.mem_singleton.mp last]
  · refine List.pairwise_append.mpr ⟨descending, List.pairwise_singleton _ _, ?_⟩
    intro higher member lower last
    rw [List.mem_singleton.mp last]
    exact above higher member

theorem trail_of_visit {before after : Progress α} {item : α}
    (visited : visit parent before item = .ok after) : ∃ trail, Trail parent before after item trail := by
  induction before, item using visit.induct parent generalizing after with
  | case1 before item placed =>
      rw [visit_placed placed] at visited
      obtain rfl : before = after := Except.ok.inj visited
      exact ⟨[], .refl before item⟩
  | case2 before item unplaced fresh shorter entered above isParent =>
      rename_i ih
      rw [visit_above unplaced fresh isParent] at visited
      cases below : visit parent (before.enter item) above with
      | error cyclic =>
          rw [below] at visited
          cases visited
      | ok middle =>
          rw [below] at visited
          obtain rfl : middle.place item = after := Except.ok.inj visited
          obtain ⟨trail, found⟩ := ih below
          refine ⟨trail ++ [item], .place unplaced fresh found.placed found.known found.fresh ?_
            found.descending⟩
          intro other member
          exact .head' isParent (found.reached other member)
  | case3 before item unplaced fresh shorter isRoot =>
      rw [visit_root unplaced fresh isRoot] at visited
      obtain rfl : (before.enter item).place item = after := Except.ok.inj visited
      exact ⟨[item], .place unplaced fresh (by simp [Progress.enter]) (.refl _) (by simp) (by simp) .nil⟩
  | case4 before item unplaced seen =>
      rw [visit_again unplaced seen] at visited
      cases visited

theorem cycle_of_visit {progress : Progress α} {item cyclic : α}
    (failed : visit parent progress item = .error cyclic)
    (path : ∀ other ∉ progress.known, TransGen (Below parent) other item) :
    TransGen (Below parent) cyclic cyclic := by
  induction progress, item using visit.induct parent with
  | case1 progress item placed =>
      rw [visit_placed placed] at failed
      cases failed
  | case2 progress item unplaced fresh shorter entered above isParent ih =>
      rw [visit_above unplaced fresh isParent] at failed
      cases below : visit parent (progress.enter item) above with
      | ok middle =>
          rw [below] at failed
          cases failed
      | error found =>
          rw [below] at failed
          obtain rfl : found = cyclic := Except.error.inj failed
          refine ih below fun other unknown => ?_
          -- The item itself is now unknown too; the parent is one step further up for all of them.
          by_cases same : other = item
          · subst same
            exact .single isParent
          · refine (path other fun known => unknown ?_).tail isParent
            rw [Progress.known, List.mem_append] at known ⊢
            exact known.imp_right (List.mem_erase_of_ne same).mpr
  | case3 progress item unplaced fresh shorter isRoot =>
      rw [visit_root unplaced fresh isRoot] at failed
      cases failed
  | case4 progress item unplaced seen =>
      rw [visit_again unplaced seen] at failed
      obtain rfl : item = cyclic := Except.error.inj failed
      exact path item (by simp [Progress.known, unplaced, seen])

theorem cycle_of_visits {items : List α} {progress : Progress α} {cyclic : α}
    (failed : items.foldlM (visit parent) progress = .error cyclic)
    (all : ∀ item, item ∈ progress.known) : TransGen (Below parent) cyclic cyclic := by
  induction items generalizing progress with
  | nil => cases failed
  | cons item items ih =>
      rcases visits_eq_error_iff.mp failed with first | ⟨middle, first, rest⟩
      · exact cycle_of_visit first fun other unknown => absurd (all other) unknown
      · obtain ⟨trail, found⟩ := trail_of_visit first
        exact ih rest fun other => found.known.mem_iff.mpr (all other)

theorem cycle_of_order {items : List α} {cyclic : α} (all : ∀ item, item ∈ items)
    (failed : order parent items = .error cyclic) : TransGen (Below parent) cyclic cyclic := by
  refine cycle_of_visits (order_eq_error_iff.mp failed) fun item => ?_
  simpa [Progress.known] using all item

example : order (fun item : Fin 3 => some (if item = 1 then 2 else 1)) [0, 1, 2] = .error 1 := by
  decide +kernel

theorem AncestorsFirst.idxOf_lt {items : List α} (first : AncestorsFirst parent items)
    (all : ∀ item, item ∈ items) {item above : α} (ancestor : TransGen (Below parent) item above) :
    items.idxOf above < items.idxOf item := by
  have step {item above : α} (below : Below parent item above) :
      items.idxOf above < items.idxOf item := by
    obtain ⟨front, back, split, notBefore⟩ := List.eq_append_cons_of_mem (all item)
    have before : above ∈ front := first front item back split above below
    rw [split, List.idxOf_append_of_mem before, List.idxOf_append_of_notMem notBefore]
    have bound := List.idxOf_lt_length_of_mem before
    omega
  induction ancestor with
  | single below => exact step below
  | tail _ below ih => exact (step below).trans ih

theorem acyclic_of_order {items placed : List α} (ordered : order parent items = .ok placed)
    (distinct : items.Nodup) (all : ∀ item, item ∈ items) (item : α) :
    ¬TransGen (Below parent) item item := by
  obtain ⟨perm, first⟩ := perm_of_order ordered distinct
  intro cyclic
  have later := first.idxOf_lt (fun other => perm.mem_iff.mpr (all other)) cyclic
  omega

end Visits

section Types

variable {types : List Declared} (distinct : (types.map (·.name.text)).Nodup)

include distinct

theorem transGen_get_iff {place above : Fin types.length} :
    TransGen (Below (parent? types)) place above ↔
      TransGen (Inherits types) (types.get place) (types.get above) := by
  constructor
  · exact TransGen.lift types.get (fun _ _ below => (parent?_eq_some_iff distinct).mp below) _ _
  · intro ancestor
    generalize isAbove : types.get above = upper at ancestor
    induction ancestor generalizing above with
    | single inherits =>
        subst isAbove
        exact .single ((parent?_eq_some_iff distinct).mpr inherits)
    | tail _ inherits ih =>
        subst isAbove
        obtain ⟨middle, rfl⟩ := List.get_of_mem inherits.1
        exact (ih rfl).tail ((parent?_eq_some_iff distinct).mpr inherits)

end Types

end Beagle.Inheritance

namespace Beagle.SourceUnit

open Relation Inheritance

/-- Whether the types of a unit can be put in order, said by which types the unit has. -/
theorem entries_outcome (unit : SourceUnit) :
    (∃ text, FirstRepeated (unit.declared.map (·.name.text)) text ∧
      unit.entries = .error (.duplicate text)) ∨
    ((unit.declared.map (·.name.text)).Nodup ∧
      ((∃ type ∈ unit.declared, TransGen (Inherits unit.declared) type type ∧
        unit.entries = .error (.cycle type.name.text)) ∨
      ((∀ type, ¬TransGen (Inherits unit.declared) type type) ∧
        ∃ places : List (Fin unit.declared.length), places.Perm (List.finRange _) ∧
          unit.entries = .ok (places.map (entry unit.declared))))) := by
  rcases unit.entries_cases with duplicate | ⟨distinct, ⟨place, failed, result⟩ | ⟨places, ordered, result⟩⟩
  · exact .inl duplicate
  · have cyclic := cycle_of_order List.mem_finRange failed
    exact .inr ⟨distinct, .inl ⟨_, List.get_mem _ place, (transGen_get_iff distinct).mp cyclic, result⟩⟩
  · refine .inr ⟨distinct, .inr ⟨?_, places, (perm_of_order ordered (List.nodup_finRange _)).1, result⟩⟩
    intro type cyclic
    obtain ⟨_, inherits, _⟩ := TransGen.head'_iff.mp cyclic
    obtain ⟨place, rfl⟩ := List.get_of_mem inherits.1
    exact acyclic_of_order ordered (List.nodup_finRange _) List.mem_finRange place
      ((transGen_get_iff distinct).mpr cyclic)

end Beagle.SourceUnit
