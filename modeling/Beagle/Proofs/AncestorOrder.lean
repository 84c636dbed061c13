import Beagle.Inheritance
import Mathlib.Data.List.FinRange
import Mathlib.Data.List.Nodup

/-!
Ancestors come first.  Whatever the visits reach is put in order once, behind its parent, and an order
that is found holds all items.
-/

namespace Beagle.Inheritance

variable {α : Type}

def AncestorsFirst (parent : α → Option α) (items : List α) : Prop :=
  ∀ front item back, items = front ++ item :: back → ∀ above, parent item = some above → above ∈ front

theorem AncestorsFirst.snoc {parent : α → Option α} {items : List α} {item : α}
    (first : AncestorsFirst parent items) (placed : ∀ above, parent item = some above → above ∈ items) :
    AncestorsFirst parent (items ++ [item]) := by
  intro front other back split above isAbove
  rcases List.eq_nil_or_concat back with rfl | ⟨back, last, rfl⟩
  · obtain ⟨rfl, same⟩ := List.append_inj' split rfl
    obtain rfl : item = other := by simpa using same
    exact placed above isAbove
  · rw [List.concat_eq_append, ← List.cons_append, ← List.append_assoc] at split
    obtain ⟨rfl, _⟩ := List.append_inj' split rfl
    exact first front other back rfl above isAbove

namespace Progress

/-- The items that are in order or not yet seen. -/
def known (progress : Progress α) : List α :=
  progress.placed ++ progress.unseen

structure Sound (parent : α → Option α) (progress : Progress α) : Prop where
  nodup : progress.known.Nodup
  ancestors : AncestorsFirst parent progress.placed

structure Extends (before after : Progress α) : Prop where
  placed : before.placed ⊆ after.placed
  known : after.known ⊆ before.known

theorem Extends.refl (progress : Progress α) : Extends progress progress :=
  ⟨List.Subset.refl _, List.Subset.refl _⟩

theorem Extends.trans {first second third : Progress α} (one : Extends first second)
    (two : Extends second third) : Extends first third :=
  ⟨List.Subset.trans one.placed two.placed, List.Subset.trans two.known one.known⟩

variable [DecidableEq α] {parent : α → Option α}

def enter (progress : Progress α) (item : α) : Progress α :=
  { progress with unseen := progress.unseen.erase item }

def place (progress : Progress α) (item : α) : Progress α :=
  { progress with placed := progress.placed ++ [item] }

theorem known_enter {progress : Progress α} {item : α} (sound : progress.Sound parent)
    (fresh : item ∈ progress.unseen) : (progress.enter item).known = progress.known.erase item := by
  have notPlaced : item ∉ progress.placed :=
    fun placed => (List.nodup_append.mp sound.nodup).2.2 item placed item fresh rfl
  exact (List.erase_append_right _ notPlaced).symm

theorem sound_enter {progress : Progress α} {item : α} (sound : progress.Sound parent)
    (fresh : item ∈ progress.unseen) : (progress.enter item).Sound parent := by
  refine ⟨?_, sound.ancestors⟩
  rw [known_enter sound fresh]
  exact sound.nodup.erase item

theorem sound_place {progress middle : Progress α} {item : α} (sound : progress.Sound parent)
    (fresh : item ∈ progress.unseen) (middleSound : middle.Sound parent)
    (extends_ : (progress.enter item).Extends middle)
    (placed : ∀ above, parent item = some above → above ∈ middle.placed) :
    (middle.place item).Sound parent ∧ progress.Extends (middle.place item) := by
  have known : (middle.place item).known.Perm (item :: middle.known) := by
    simp only [Progress.known, place, List.append_assoc, List.singleton_append]
    exact List.perm_middle
  have inside : middle.known ⊆ progress.known.erase item := known_enter sound fresh ▸ extends_.known
  refine ⟨⟨?_, middleSound.ancestors.snoc placed⟩, ?_, ?_⟩
  · rw [known.nodup_iff, List.nodup_cons]
    exact ⟨fun member => sound.nodup.not_mem_erase (inside member), middleSound.nodup⟩
  · exact List.Subset.trans extends_.placed (List.subset_append_left _ _)
  · intro other member
    rcases List.mem_cons.mp (known.mem_iff.mp member) with rfl | later
    · exact List.mem_append_right _ fresh
    · exact List.mem_of_mem_erase (inside later)

end Progress

variable [DecidableEq α] {parent : α → Option α}

section Unfolding

variable {progress : Progress α} {item : α}

theorem visit_placed (placed : item ∈ progress.placed) : visit parent progress item = .ok progress := by
  rw [visit, if_pos placed]

theorem visit_again (unplaced : item ∉ progress.placed) (seen : item ∉ progress.unseen) :
    visit parent progress item = .error item := by
  rw [visit, if_neg unplaced, dif_neg seen]

theorem visit_root (unplaced : item ∉ progress.placed) (fresh : item ∈ progress.unseen)
    (isRoot : parent item = none) :
    visit parent progress item = .ok ((progress.enter item).place item) := by
  rw [visit, if_neg unplaced, dif_pos fresh]
  simp only [isRoot]
  rfl

theorem visit_above {above : α} (unplaced : item ∉ progress.placed) (fresh : item ∈ progress.unseen)
    (isParent : parent item = some above) :
    visit parent progress item =
      (visit parent (progress.enter item) above).map fun after => after.place item := by
  rw [visit, if_neg unplaced, dif_pos fresh]
  simp only [isParent]
  rfl

end Unfolding

theorem visits_eq_ok_iff {progress after : Progress α} {item : α} {items : List α} :
    (item :: items).foldlM (visit parent) progress = .ok after ↔
      ∃ middle, visit parent progress item = .ok middle ∧
        items.foldlM (visit parent) middle = .ok after := by
  rw [List.foldlM_cons]
  cases visit parent progress item with
  | error cyclic => exact ⟨nofun, fun ⟨_, isMiddle, _⟩ => nomatch isMiddle⟩
  | ok middle =>
      constructor
      · exact fun visited => ⟨middle, rfl, visited⟩
      · rintro ⟨other, isMiddle, visited⟩
        obtain rfl : middle = other := Except.ok.inj isMiddle
        exact visited

theorem visits_eq_error_iff {progress : Progress α} {item cyclic : α} {items : List α} :
    (item :: items).foldlM (visit parent) progress = .error cyclic ↔
      visit parent progress item = .error cyclic ∨
        ∃ middle, visit parent progress item = .ok middle ∧
          items.foldlM (visit parent) middle = .error cyclic := by
  rw [List.foldlM_cons]
  cases visit parent progress item with
  | error found =>
      constructor
      · exact .inl
      · rintro (failed | ⟨_, isMiddle, _⟩)
        · exact failed
        · cases isMiddle
  | ok middle =>
      constructor
      · exact fun failed => .inr ⟨middle, rfl, failed⟩
      · rintro (failed | ⟨other, isMiddle, failed⟩)
        · cases failed
        · obtain rfl : middle = other := Except.ok.inj isMiddle
          exact failed

theorem order_eq_ok_iff {items placed : List α} : order parent items = .ok placed ↔
    ∃ unseen, items.foldlM (visit parent) ⟨[], items⟩ = .ok ⟨placed, unseen⟩ := by
  unfold order
  cases items.foldlM (visit parent) ⟨[], items⟩ with
  | error cyclic => exact ⟨nofun, fun ⟨_, visited⟩ => nomatch visited⟩
  | ok after =>
      constructor
      · intro ordered
        obtain rfl : after.placed = placed := Except.ok.inj ordered
        exact ⟨after.unseen, rfl⟩
      · rintro ⟨unseen, visited⟩
        obtain rfl : after = ⟨placed, unseen⟩ := Except.ok.inj visited
        rfl

theorem order_eq_error_iff {items : List α} {cyclic : α} : order parent items = .error cyclic ↔
    items.foldlM (visit parent) ⟨[], items⟩ = .error cyclic := by
  unfold order
  cases items.foldlM (visit parent) ⟨[], items⟩ with
  | error found =>
      constructor
      · intro failed
        obtain rfl : found = cyclic := Except.error.inj failed
        rfl
      · intro failed
        obtain rfl : found = cyclic := Except.error.inj failed
        rfl
  | ok after => exact ⟨nofun, nofun⟩

theorem sound_of_visit {progress after : Progress α} {item : α}
    (visited : visit parent progress item = .ok after) (sound : progress.Sound parent) :
    after.Sound parent ∧ progress.Extends after ∧ item ∈ after.placed := by
  fun_induction visit parent progress item generalizing after with
  | case1 progress item placed =>
      obtain rfl : progress = after := by simpa using visited
      exact ⟨sound, .refl progress, placed⟩
  | case2 progress item _ fresh _ entered join above isParent =>
      rename_i ih
      cases below : visit parent entered above with
      | error cyclic =>
          rw [below] at visited
          cases visited
      | ok middle =>
          rw [below] at visited
          obtain rfl : middle.place item = after := Except.ok.inj visited
          -- The item is unknown while its parent is visited, so the visit cannot have placed it.
          obtain ⟨middleSound, extends_, placed⟩ := ih below (Progress.sound_enter sound fresh)
          have result := Progress.sound_place sound fresh middleSound extends_ fun other isOther => by
            obtain rfl : above = other := Option.some.inj (isParent.symm.trans isOther)
            exact placed
          exact ⟨result.1, result.2, by simp [Progress.place]⟩
  | case3 progress item _ fresh _ entered join =>
      rename_i isRoot
      obtain rfl : (progress.enter item).place item = after := Except.ok.inj visited
      have result := Progress.sound_place sound fresh (Progress.sound_enter sound fresh) (.refl _)
        fun above isAbove => by simp [isRoot] at isAbove
      exact ⟨result.1, result.2, by simp [Progress.place]⟩
  | case4 => simp at visited

theorem sound_of_visits {progress after : Progress α} {items : List α}
    (visited : items.foldlM (visit parent) progress = .ok after) (sound : progress.Sound parent) :
    after.Sound parent ∧ progress.Extends after ∧ items ⊆ after.placed := by
  induction items generalizing progress with
  | nil =>
      obtain rfl : progress = after := Except.ok.inj visited
      exact ⟨sound, .refl progress, List.nil_subset _⟩
  | cons item items ih =>
      obtain ⟨middle, first, rest⟩ := visits_eq_ok_iff.mp visited
      obtain ⟨middleSound, one, placed⟩ := sound_of_visit first sound
      obtain ⟨afterSound, two, others⟩ := ih rest middleSound
      exact ⟨afterSound, one.trans two, List.cons_subset.mpr ⟨two.placed placed, others⟩⟩

theorem perm_of_order {items placed : List α} (ordered : order parent items = .ok placed)
    (distinct : items.Nodup) : placed.Perm items ∧ AncestorsFirst parent placed := by
  obtain ⟨unseen, visited⟩ := order_eq_ok_iff.mp ordered
  have start : Progress.Sound parent ⟨[], items⟩ := ⟨distinct, by simp [AncestorsFirst]⟩
  obtain ⟨sound, extends_, all⟩ := sound_of_visits visited start
  refine ⟨?_, sound.ancestors⟩
  rw [List.perm_ext_iff_of_nodup sound.nodup.of_append_left distinct]
  exact fun item => ⟨fun member => extends_.known (List.mem_append_left _ member),
    fun member => all member⟩

end Beagle.Inheritance
