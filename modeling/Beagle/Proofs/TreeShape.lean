import Beagle.Proofs.Reading.Unit

/-!
The shape of parsed trees.  Whatever the tokens are, no node is attached twice, and a parsed unit is a
tree whose links lead from every node to the one that lists it.  Its ids come from the range that the
session handed out, and use all of it if no error was reported.
-/

namespace Beagle

def Visitor.recorder : Visitor (List Node) where
  enter node seen := (true, seen ++ [node])
  leave _ seen := seen

namespace Node

theorem foldl_walk_recorder (nodes seen : List Node) :
    nodes.foldl (fun seen node => node.walk .recorder seen) seen = seen ++ all nodes := by
  induction nodes using forest_induct generalizing seen with
  | nil => simp
  | cons node nodes below later =>
      have walked : node.walk .recorder seen = seen ++ [node] ++ all node.children := by
        rw [walk_eq]
        exact below (seen ++ [node])
      rw [List.foldl_cons, later, walked, all_cons]
      simp

theorem eq_or_mem_children_of_mem_preorder {root node : Node} (member : node ∈ root.preorder) :
    node = root ∨ ∃ owner ∈ root.preorder, node ∈ owner.children := by
  induction root using preorder.induct with
  | case1 root ih =>
      rw [preorder_eq, List.mem_cons, List.mem_flatMap] at member
      rcases member with same | ⟨child, isChild, below⟩
      · exact .inl same
      · have inside (other : Node) (found : other ∈ child.preorder) : other ∈ root.preorder := by
          rw [preorder_eq]
          exact List.mem_cons_of_mem _ (List.mem_flatMap.mpr ⟨child, isChild, found⟩)
        rcases ih ⟨child, isChild⟩ below with same | ⟨owner, found, owns⟩
        · exact .inr ⟨root, by rw [preorder_eq]; exact List.mem_cons_self, same ▸ isChild⟩
        · exact .inr ⟨owner, inside owner found, owns⟩

end Node

namespace SourceUnit

def visited (unit : SourceUnit) : List Node :=
  (Node.unit unit).walk .recorder []

theorem visited_eq_all (unit : SourceUnit) : unit.visited = Node.all [.unit unit] :=
  Node.foldl_walk_recorder [.unit unit] []

theorem visited_eq_preorder (unit : SourceUnit) : unit.visited = (Node.unit unit).preorder := by
  rw [visited_eq_all, Node.all, List.flatMap_singleton]

def ids (unit : SourceUnit) : List Nat :=
  unit.visited.map Node.id

/-- A tree with ids from `low` on and below `high`, in which every link leads to the node that lists
the linked one among its children. -/
structure WellFormed (unit : SourceUnit) (low high : Nat) : Prop where
  distinct : unit.ids.Nodup
  within : ∀ id ∈ unit.ids, low ≤ id ∧ id < high
  root : unit.info.parent = none
  owner : ∀ node ∈ unit.visited, node = .unit unit ∨ ∃ owner ∈ unit.visited, node ∈ owner.children
  linked : ∀ owner ∈ unit.visited, ∀ child ∈ owner.children,
    child.info.parent = some owner.id ∧ owner.id < child.id
  types : unit.types ≠ []

theorem wellFormed_of_reading {σ : Type} [TokenSource σ] {state : State σ} {unit : SourceUnit}
    (reading : state.Reading unit) :
    unit.WellFormed state.session.nextId state.parse.2.session.nextId where
  distinct := by
    rw [ids, visited_eq_all]
    exact reading.forest.distinct
  within id member := by
    rw [ids, visited_eq_all] at member
    obtain ⟨node, found, rfl⟩ := List.mem_map.mp member
    exact reading.forest.within node found
  root := reading.root
  owner node member := by
    rw [visited_eq_preorder] at member ⊢
    exact Node.eq_or_mem_children_of_mem_preorder member
  linked := by
    rw [visited_eq_all]
    exact reading.forest.linked
  types := reading.types

end SourceUnit

theorem mem_of_nodup_of_length {ids : List Nat} {low high : Nat} (distinct : ids.Nodup)
    (within : ∀ id ∈ ids, low ≤ id ∧ id < high) (counted : low + ids.length = high) {id : Nat}
    (above : low ≤ id) (below : id < high) : id ∈ ids := by
  have sub : ids.Subperm (List.range' low ids.length) := by
    refine distinct.subperm fun other member => ?_
    have := within other member
    simp only [List.mem_range'_1]
    omega
  have perm := sub.perm_of_length_le (by simp)
  rw [perm.mem_iff, List.mem_range'_1]
  omega

/-- Every parse is free of attach faults, and a parsed unit is a well-formed tree with new ids.  If the
parse reported no error the tree has all ids that were handed out.  Later units have other ids. -/
theorem parse_wellFormed {σ : Type} [TokenSource σ] (state : State σ) :
    (∀ fault, state.parse.1 ≠ .error (.misattached fault)) ∧
    ∀ unit, state.parse.1 = .ok unit →
      unit.WellFormed state.session.nextId state.parse.2.session.nextId ∧
      (state.parse.2.session.errorCount = state.session.errorCount →
        ∀ id, state.session.nextId ≤ id → id < state.parse.2.session.nextId → id ∈ unit.ids) ∧
      ∀ {τ : Type} [TokenSource τ] (later : State τ) (other : SourceUnit),
        state.parse.2.session.nextId ≤ later.session.nextId → later.parse.1 = .ok other →
        unit.ids.Disjoint other.ids := by
  refine ⟨state.parse_ne_misattached, fun unit parsed => ?_⟩
  have reading := state.reading_of_parse parsed
  refine ⟨unit.wellFormed_of_reading reading, fun clean id above below => ?_, ?_⟩
  · have bounds := unit.wellFormed_of_reading reading
    refine mem_of_nodup_of_length bounds.distinct bounds.within ?_ above below
    rw [SourceUnit.ids, List.length_map, SourceUnit.visited_eq_all]
    exact reading.counted clean
  · intro τ _ later other after parsedOther id first second
    have upper := ((unit.wellFormed_of_reading reading).within id first).2
    have lower := ((other.wellFormed_of_reading (later.reading_of_parse parsedOther)).within id second).1
    omega

def smallUnit : State Tape :=
  .ofSource (.ofTokens "a.bgl" [.symbol (.keyword .classWord) ⟨1, 1⟩, ⟨.identifier, "A", ⟨1, 7⟩⟩,
    .symbol (.mark .colon) ⟨1, 9⟩, ⟨.identifier, "B", ⟨1, 11⟩⟩, .symbol (.mark .leftBrace) ⟨1, 13⟩,
    .symbol (.keyword .varWord) ⟨1, 15⟩, ⟨.identifier, "x", ⟨1, 19⟩⟩, .symbol (.mark .assign) ⟨1, 21⟩,
    ⟨.integer, "1", ⟨1, 23⟩⟩, .symbol (.mark .rightBrace) ⟨1, 25⟩]) 2 .empty

theorem parse_smallUnit_wellFormed : ∃ unit, smallUnit.parse.1 = .ok unit ∧
    unit.WellFormed 0 6 ∧ ∀ id < 6, id ∈ unit.ids := by
  have ran : smallUnit.parse.1.isOk ∧ smallUnit.parse.2.session.nextId = 6 ∧
      smallUnit.parse.2.session.errorCount = 0 := by decide +kernel
  obtain ⟨parsed, next, clean⟩ := ran
  match found : smallUnit.parse.1 with
  | .error stop => simp [found, Except.isOk, Except.toBool] at parsed
  | .ok unit =>
      obtain ⟨wellFormed, full, _⟩ := (parse_wellFormed smallUnit).2 unit found
      rw [next] at wellFormed full
      exact ⟨unit, rfl, wellFormed, fun id => full clean id (Nat.zero_le id)⟩

end Beagle
