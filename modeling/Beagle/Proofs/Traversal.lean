import Beagle.Proofs.Ownership

/-!
The events of a walk.  Whatever a visitor answers, and whatever it remembers, the walk enters and
leaves nodes in pairs, goes below a node exactly if the visitor says so, and takes siblings in order.  A
visitor that decides by the node alone is shown the nodes with no closed node above them, in preorder.
-/

namespace Beagle

/-- What a visitor is told.  On entering a node it answers whether the walk goes below it. -/
inductive Event
  | enter (node : Node) (descends : Bool)
  | leave (node : Node)

namespace Event

def node : Event → Node
  | .enter node _ => node
  | .leave node => node

def entered? : Event → Option Node
  | .enter node _ => some node
  | .leave _ => none

end Event

namespace Visitor

variable {β : Type}

def logged (visitor : Visitor β) : Visitor (β × List Event) where
  enter node state :=
    let entered := visitor.enter node state.1
    (entered.1, entered.2, state.2 ++ [.enter node entered.1])
  leave node state := (visitor.leave node state.1, state.2 ++ [.leave node])

def take (visitor : Visitor β) (state : β) : Event → Option β
  | .enter node descends =>
    let entered := visitor.enter node state
    if entered.1 = descends then some entered.2 else none
  | .leave node => some (visitor.leave node state)

end Visitor

/-- Events of siblings in order: each is entered, then come the events of its children if it was opened and
none otherwise, and then it is left. -/
inductive Bracketed : List Node → List Event → Prop
  | nil : Bracketed [] []
  | cons {node : Node} {nodes : List Node} {descends : Bool} {inner later : List Event} :
      Bracketed (if descends then node.children else []) inner → Bracketed nodes later →
      Bracketed (node :: nodes) (.enter node descends :: inner ++ .leave node :: later)

theorem append_cons_cases {α : Type} {front back before after : List α} {middle item : α}
    (same : front ++ middle :: back = before ++ item :: after) :
    (∃ rest, front = before ++ item :: rest ∧ after = rest ++ middle :: back) ∨
    (before = front ∧ middle = item ∧ back = after) ∨
    (∃ rest, before = front ++ middle :: rest ∧ back = rest ++ item :: after) := by
  rcases List.append_eq_append_iff.mp same with ⟨_ | ⟨first, rest⟩, isBefore, isBack⟩ | ⟨rest, isFront, isAfter⟩
  · obtain ⟨rfl, rfl⟩ := List.cons.inj isBack
    exact .inr (.inl ⟨by simpa using isBefore, rfl, rfl⟩)
  · obtain ⟨rfl, rfl⟩ := List.cons.inj isBack
    exact .inr (.inr ⟨rest, isBefore, rfl⟩)
  · cases rest with
    | nil =>
        obtain ⟨rfl, rfl⟩ := List.cons.inj isAfter
        exact .inr (.inl ⟨by simpa using isFront.symm, rfl, rfl⟩)
    | cons first rest =>
        obtain ⟨rfl, rfl⟩ := List.cons.inj isAfter
        exact .inl ⟨rest, isFront, rfl⟩

namespace Bracketed

variable {nodes : List Node} {events before after : List Event} {node : Node} {descends : Bool}

theorem all_opened_sublist (node : Node) (descends : Bool) :
    (Node.all (if descends then node.children else [])).Sublist (Node.all node.children) := by
  cases descends with
  | false => exact List.nil_sublist _
  | true => exact List.Sublist.refl _

theorem mem_all (bracketed : Bracketed nodes events) : ∀ event ∈ events, event.node ∈ Node.all nodes := by
  induction bracketed with
  | nil => simp
  | @cons node nodes descends inner later _ _ below others =>
      intro event member
      simp only [List.mem_cons, List.mem_append] at member
      rw [Node.all_cons, List.mem_cons, List.mem_append]
      rcases member with (rfl | member) | rfl | member
      · exact .inl rfl
      · exact .inr (.inl ((all_opened_sublist node descends).subset (below event member)))
      · exact .inl rfl
      · exact .inr (.inr (others event member))

/-- No node is entered twice, and none before a node that precedes it. -/
theorem entered_sublist (bracketed : Bracketed nodes events) :
    (events.filterMap Event.entered?).Sublist (Node.all nodes) := by
  induction bracketed with
  | nil => exact List.Sublist.slnil
  | @cons node nodes descends inner later _ _ below others =>
      rw [Node.all_cons, List.filterMap_append]
      exact ((below.trans (all_opened_sublist node descends)).append others).cons_cons node

theorem leave_of_enter (bracketed : Bracketed nodes events)
    (split : events = before ++ .enter node descends :: after) :
    ∃ inner later, after = inner ++ .leave node :: later ∧
      Bracketed (if descends then node.children else []) inner := by
  induction bracketed generalizing before after with
  | nil => simp at split
  | @cons first nodes opened inner later below _ ihBelow ihLater =>
      cases before with
      | nil =>
          obtain ⟨⟨rfl, rfl⟩, rfl⟩ : (first = node ∧ opened = descends) ∧ _ = after := by simpa using split
          exact ⟨inner, later, rfl, below⟩
      | cons event before =>
          rcases append_cons_cases (List.cons.inj split).2 with
            ⟨rest, isInner, rfl⟩ | ⟨_, absurd, _⟩ | ⟨rest, _, isLater⟩
          · obtain ⟨deeper, others, rfl, brackets⟩ := ihBelow isInner
            exact ⟨deeper, others ++ .leave first :: later, by simp, brackets⟩
          · cases absurd
          · exact ihLater isLater

theorem enter_of_leave (bracketed : Bracketed nodes events)
    (split : events = before ++ .leave node :: after) :
    ∃ earlier descends inner, before = earlier ++ .enter node descends :: inner ∧
      Bracketed (if descends then node.children else []) inner := by
  induction bracketed generalizing before after with
  | nil => simp at split
  | @cons first nodes opened inner later below _ ihBelow ihLater =>
      cases before with
      | nil => cases split
      | cons event before =>
          obtain ⟨rfl, rest⟩ := List.cons.inj split
          rcases append_cons_cases rest with
            ⟨rest, isInner, _⟩ | ⟨rfl, isNode, _⟩ | ⟨rest, rfl, isLater⟩
          · obtain ⟨earlier, descends, deeper, rfl, brackets⟩ := ihBelow isInner
            exact ⟨.enter first opened :: earlier, descends, deeper, rfl, brackets⟩
          · cases isNode
            exact ⟨[], opened, before, rfl, below⟩
          · obtain ⟨earlier, descends, deeper, rfl, brackets⟩ := ihLater isLater
            exact ⟨.enter first opened :: inner ++ .leave first :: earlier, descends, deeper, by simp, brackets⟩

end Bracketed

namespace Node

variable {β : Type} {visitor : Visitor β} {node : Node} {state : β}

theorem walk_eq_foldl (node : Node) (visitor : Visitor β) (state : β) :
    node.walk visitor state = visitor.leave node
      ((if (visitor.enter node state).1 then node.children else []).foldl
        (fun state child => child.walk visitor state) (visitor.enter node state).2) := by
  rw [walk_eq]
  cases opened : (visitor.enter node state).1 <;> simp [opened]

def Logs (visitor : Visitor β) (nodes : List Node) : Prop :=
  ∀ (state : β) (log : List Event), ∃ events, Bracketed nodes events ∧
    events.foldlM visitor.take state = some (nodes.foldl (fun state node => node.walk visitor state) state) ∧
    nodes.foldl (fun state node => node.walk visitor.logged state) (state, log) =
      (nodes.foldl (fun state node => node.walk visitor state) state, log ++ events)

theorem logs_nil : Logs visitor [] :=
  fun _ _ => ⟨[], .nil, rfl, by simp⟩

theorem logs_all (visitor : Visitor β) (nodes : List Node) : Logs visitor nodes := by
  induction nodes using forest_induct with
  | nil => exact logs_nil
  | cons node nodes below later =>
      intro state log
      generalize isEntered : visitor.enter node state = entered
      have inside : Logs visitor (if entered.1 then node.children else []) := by
        split
        · exact below
        · exact logs_nil
      obtain ⟨inner, brackets, taken, ran⟩ := inside entered.2 (log ++ [.enter node entered.1])
      have walked : node.walk visitor.logged (state, log) =
          (node.walk visitor state, log ++ [.enter node entered.1] ++ inner ++ [.leave node]) := by
        rw [walk_eq_foldl node visitor, isEntered, walk_eq_foldl]
        simp only [Visitor.logged, isEntered] at ran ⊢
        rw [ran]
      obtain ⟨others, bracketsOthers, takenOthers, ranOthers⟩ := later (node.walk visitor state)
        (log ++ [.enter node entered.1] ++ inner ++ [.leave node])
      refine ⟨.enter node entered.1 :: inner ++ .leave node :: others, .cons brackets bracketsOthers, ?_, ?_⟩
      · rw [walk_eq_foldl, isEntered] at takenOthers
        simp [Visitor.take, isEntered, List.foldlM_append, taken, takenOthers, walk_eq_foldl node visitor]
      · rw [List.foldl_cons, walked, ranOthers]
        simp

def events (node : Node) (visitor : Visitor β) (state : β) : List Event :=
  (node.walk visitor.logged (state, [])).2

theorem bracketed_events (node : Node) (visitor : Visitor β) (state : β) :
    Bracketed [node] (node.events visitor state) ∧
      (node.events visitor state).foldlM visitor.take state = some (node.walk visitor state) := by
  obtain ⟨events, brackets, taken, ran⟩ := logs_all visitor [node] state []
  have noted : node.events visitor state = events := congrArg Prod.snd ran
  exact ⟨noted ▸ brackets, noted ▸ taken⟩

/-- The node and the nodes below it in preorder, each with the nodes above it: first its owner, and last
the nodes `above`. -/
def lineage (above : List Node) (node : Node) : List (Node × List Node) :=
  (node, above) :: node.children.attach.flatMap fun child => lineage (node :: above) child.1
termination_by node.depth
decreasing_by exact depth_lt_of_mem_children child.2

theorem lineage_eq (above : List Node) (node : Node) :
    node.lineage above = (node, above) :: node.children.flatMap (lineage (node :: above)) := by
  rw [lineage]
  simp [List.flatMap_def]

variable {nodes above : List Node} {met : Node × List Node}

theorem flatMap_lineage_cons : (node :: nodes).flatMap (lineage above) =
    (node, above) :: (node.children.flatMap (lineage (node :: above)) ++ nodes.flatMap (lineage above)) := by
  rw [List.flatMap_cons, lineage_eq, List.cons_append]

theorem map_fst_lineage : (nodes.flatMap (lineage above)).map Prod.fst = all nodes := by
  induction nodes using forest_induct generalizing above with
  | nil => rfl
  | cons node nodes below later =>
      rw [flatMap_lineage_cons, List.map_cons, List.map_append, below, later, all_cons]

theorem suffix_of_mem_lineage (member : met ∈ nodes.flatMap (lineage above)) : above <:+ met.2 := by
  induction nodes using forest_induct generalizing above with
  | nil => cases member
  | cons node nodes below later =>
      rw [flatMap_lineage_cons, List.mem_cons, List.mem_append] at member
      rcases member with rfl | inside | other
      · exact List.suffix_refl _
      · exact (List.suffix_cons node above).trans (below inside)
      · exact later other

theorem filter_lineage_of_closed {opens : Node → Bool} (closed : opens node = false)
    (isAbove : node ∈ above) :
    (nodes.flatMap (lineage above)).filter (fun met => met.2.all opens) = [] := by
  rw [List.filter_eq_nil_iff]
  intro met member allOpen
  have isOpen := List.all_eq_true.mp allOpen node ((suffix_of_mem_lineage member).subset isAbove)
  simp [closed] at isOpen

theorem isChain_of_mem_lineage
    (path : ∀ node ∈ nodes, (node :: above).IsChain fun child owner => child ∈ owner.children)
    (member : met ∈ nodes.flatMap (lineage above)) :
    (met.1 :: met.2).IsChain fun child owner => child ∈ owner.children := by
  induction nodes using forest_induct generalizing above with
  | nil => cases member
  | cons node nodes below later =>
      obtain ⟨here, others⟩ := List.forall_mem_cons.mp path
      rw [flatMap_lineage_cons, List.mem_cons, List.mem_append] at member
      rcases member with rfl | inside | other
      · exact here
      · exact below (fun child isChild => .cons_cons isChild here) inside
      · exact later others other

end Node

theorem Visitor.descends_of_take {β : Type} {visitor : Visitor β} {opens : Node → Bool}
    (decides : ∀ node state, (visitor.enter node state).1 = opens node) {events : List Event} {state final : β}
    (taken : events.foldlM visitor.take state = some final) {node : Node} {descends : Bool}
    (member : .enter node descends ∈ events) : descends = opens node := by
  induction events generalizing state with
  | nil => cases member
  | cons event events ih =>
      rw [List.foldlM_cons] at taken
      obtain ⟨middle, first, rest⟩ := Option.bind_eq_some_iff.mp taken
      rcases List.mem_cons.mp member with rfl | later
      · rw [take, decides] at first
        split at first
        · rename_i same
          exact same.symm
        · cases first
      · exact ih rest later

open Node in
theorem Bracketed.entered_eq {opens : Node → Bool} {nodes above : List Node} {events : List Event}
    (bracketed : Bracketed nodes events)
    (answers : ∀ node descends, .enter node descends ∈ events → descends = opens node)
    (opened : above.all opens = true) :
    events.filterMap Event.entered? =
      ((nodes.flatMap (lineage above)).filter fun met => met.2.all opens).map Prod.fst := by
  induction bracketed generalizing above with
  | nil => rfl
  | @cons node nodes descends inner later inside _ below others =>
      obtain rfl : descends = opens node := answers node descends (by simp)
      have innerAnswers (other : Node) (descends : Bool) (member : .enter other descends ∈ inner) :=
        answers other descends (by simp [member])
      have laterEq := others (fun other descends member => answers other descends (by simp [member])) opened
      have innerEq : inner.filterMap Event.entered? =
          ((node.children.flatMap (lineage (node :: above))).filter fun met => met.2.all opens).map
            Prod.fst := by
        cases isOpen : opens node with
        | true =>
            simp only [isOpen, if_true] at below
            exact below innerAnswers (by simp [isOpen, opened])
        | false =>
            simp only [isOpen, Bool.false_eq_true, if_false] at inside
            cases inside
            rw [filter_lineage_of_closed isOpen List.mem_cons_self]
            rfl
      simp only [flatMap_lineage_cons, List.filter_cons, opened, if_true, List.filter_append,
        List.map_cons, List.map_append, ← innerEq, ← laterEq]
      rw [List.filterMap_append]
      rfl

open Node in
/-- The events of every walk pair up.  The visitor, told of them one by one, gives the answers that they
have and ends in the state of the walk.  Every node that is entered is left; between the two come the
events of its children in order if the visitor opened the node, and none if not; and every node that is
left was entered before like that.  Nodes are entered in preorder and at most once.  If the visitor decides
by the node alone, exactly those nodes are entered that have no closed node above them. -/
theorem walk_events_paired {β : Type} (visitor : Visitor β) (node : Node) (state : β) :
    (node.events visitor state).foldlM visitor.take state = some (node.walk visitor state) ∧
    Bracketed [node] (node.events visitor state) ∧
    (∀ before entered descends after,
      node.events visitor state = before ++ .enter entered descends :: after →
      ∃ inner later, after = inner ++ .leave entered :: later ∧
        Bracketed (if descends then entered.children else []) inner ∧
        ∀ event ∈ inner, event.node ∈ all entered.children) ∧
    (∀ before left after, node.events visitor state = before ++ .leave left :: after →
      ∃ earlier descends inner, before = earlier ++ .enter left descends :: inner ∧
        Bracketed (if descends then left.children else []) inner) ∧
    ((node.events visitor state).filterMap Event.entered?).Sublist node.preorder ∧
    (node.lineage []).map Prod.fst = node.preorder ∧
    (∀ met ∈ node.lineage [],
      (met.1 :: met.2).IsChain (fun child owner => child ∈ owner.children) ∧ [node] <:+ met.1 :: met.2) ∧
    ∀ opens : Node → Bool, (∀ other state, (visitor.enter other state).1 = opens other) →
      (node.events visitor state).filterMap Event.entered? =
        ((node.lineage []).filter fun met => met.2.all opens).map Prod.fst := by
  obtain ⟨brackets, taken⟩ := bracketed_events node visitor state
  have single : [node].flatMap (lineage []) = node.lineage [] := List.flatMap_singleton ..
  have whole : all [node] = node.preorder := List.flatMap_singleton ..
  refine ⟨taken, brackets, ?_, ?_, whole ▸ brackets.entered_sublist, ?_, ?_, ?_⟩
  · intro before entered descends after split
    obtain ⟨inner, later, isAfter, inside⟩ := brackets.leave_of_enter split
    refine ⟨inner, later, isAfter, inside, fun event member => ?_⟩
    exact (Bracketed.all_opened_sublist entered descends).subset (inside.mem_all event member)
  · intro before left after split
    exact brackets.enter_of_leave split
  · rw [← single, map_fst_lineage, whole]
  · intro met member
    refine ⟨isChain_of_mem_lineage (by simp) (single ▸ member), ?_⟩
    rw [lineage_eq, List.mem_cons] at member
    rcases member with rfl | below
    · exact List.suffix_refl _
    · exact (suffix_of_mem_lineage below).trans (List.suffix_cons _ _)
  · intro opens decides
    rw [← single]
    exact brackets.entered_eq (fun _ _ => Visitor.descends_of_take decides taken) rfl

def Visitor.counter : Visitor Nat where
  enter node count := (!node matches .annot _, count + 1)
  leave _ count := count

def testAnnot : Annot :=
  ⟨⟨1, .start, some 0⟩, ⟨⟨2, .start, some 1⟩, .single "Test"⟩⟩

def onlyParam : Param :=
  ⟨⟨3, .start, some 0⟩, "x", ⟨⟨4, .start, some 3⟩, .single "int32"⟩⟩

def annotatedMethod : Node :=
  .method ⟨.fresh 0 .start, [testAnnot], none, "run", [onlyParam], none, none⟩

theorem events_annotatedMethod : annotatedMethod.events .counter 0 =
    [.enter annotatedMethod true, .enter (.annot testAnnot) false, .leave (.annot testAnnot),
      .enter (.param onlyParam) true, .enter (.typeRef onlyParam.type) true, .leave (.typeRef onlyParam.type),
      .leave (.param onlyParam), .leave annotatedMethod] := by
  have walks := fun node : Node => node.walk_eq_foldl Visitor.counter.logged
  have opens (node : Node) (state : Nat × List Event) :
      (Visitor.counter.logged.enter node state).1 = !node matches .annot _ := rfl
  have walkType (state : Nat × List Event) : (Node.typeRef onlyParam.type).walk Visitor.counter.logged state =
      (state.1 + 1, state.2 ++ [.enter (.typeRef onlyParam.type) true, .leave (.typeRef onlyParam.type)]) := by
    rw [walks, opens]
    simp [Node.children, Visitor.logged, Visitor.counter]
  have walkParam (state : Nat × List Event) : (Node.param onlyParam).walk Visitor.counter.logged state =
      (state.1 + 2, state.2 ++ [.enter (.param onlyParam) true, .enter (.typeRef onlyParam.type) true,
        .leave (.typeRef onlyParam.type), .leave (.param onlyParam)]) := by
    rw [walks, opens]
    change Visitor.counter.logged.leave _ ((Node.typeRef onlyParam.type).walk _ _) = _
    rw [walkType]
    simp [Visitor.logged, Visitor.counter]
  rw [Node.events, walks, opens]
  change ((Node.param onlyParam).walk Visitor.counter.logged ((Node.annot testAnnot).walk _ _)).2 ++ [_] = _
  rw [walkParam, walks, opens]
  rfl

/-- The annotation is left right after it was entered, and its type is not entered. -/
theorem walk_events_paired_example :
    (∃ inner later, annotatedMethod.events .counter 0 =
        .enter annotatedMethod true :: .enter (.annot testAnnot) false :: inner ++
          .leave (.annot testAnnot) :: later ∧
      Bracketed [] inner) ∧
    (annotatedMethod.events .counter 0).filterMap Event.entered? =
      [annotatedMethod, .annot testAnnot, .param onlyParam, .typeRef onlyParam.type] := by
  obtain ⟨_, _, paired, _, _, _, _, decided⟩ := walk_events_paired .counter annotatedMethod 0
  obtain ⟨inner, later, isAfter, inside, _⟩ :=
    paired [.enter annotatedMethod true] (.annot testAnnot) false _ events_annotatedMethod
  refine ⟨⟨inner, later, ?_, inside⟩, ?_⟩
  · rw [events_annotatedMethod, isAfter]
    rfl
  · have lines : annotatedMethod.lineage [] = [(annotatedMethod, []),
        (.annot testAnnot, [annotatedMethod]),
        (.typeRef testAnnot.type, [.annot testAnnot, annotatedMethod]),
        (.param onlyParam, [annotatedMethod]),
        (.typeRef onlyParam.type, [.param onlyParam, annotatedMethod])] := by
      simp [Node.lineage_eq, Node.children, annotatedMethod]
    rw [decided (fun node => !node matches .annot _) fun _ _ => rfl, lines]
    rfl

end Beagle
