import Beagle.Proofs.Invariance.Rule
import Beagle.Proofs.Reading.Unit

/-!
Every rule of the grammar keeps every invariant.  A class body may bring the parse to its end; from there
on only a check for the end of file follows.
-/

namespace Beagle

variable {σ : Type} [TokenSource σ] {invariant : Invariant σ} {state : State σ}

namespace Grammar

open Rule Invariant

theorem safe_terminators (held : invariant.holds state) : invariant.Safe terminators state := by
  refine (safe_collect held fun later => ?_).bind fun _ _ last _ => safe_pure _ last
  refine (keeps_takeWhen (fun _ => True) later ?_ ?_ fun _ _ _ _ => trivial).safe
  · intro token last
    simp [last, isTerminator]
  · intro token invalid
    simp [invalid, isTerminator]

theorem safe_simpleName (held : invariant.holds state) : invariant.Safe simpleName state :=
  (keeps_expect held (by simp) (by simp)).bind fun _ _ later _ => safe_pure _ later

theorem safe_segmentStep (held : invariant.holds state) : invariant.Safe segmentStep state := by
  refine (safe_startsWith _ held).bind fun found _ later _ => ?_
  cases found with
  | false => exact safe_pure none later
  | true =>
      refine (keeps_expect later (by simp) (by simp)).bind fun _ _ dotted _ => ?_
      exact (safe_simpleName dotted).bind fun _ _ last _ => safe_pure _ last

theorem safe_qualifiedName (held : invariant.holds state) : invariant.Safe qualifiedName state :=
  (safe_simpleName held).bind fun _ _ later _ =>
    (safe_collect later safe_segmentStep).bind fun _ _ last _ => safe_pure _ last

theorem safe_typeRef (held : invariant.holds state) : invariant.Safe typeRef state :=
  (keeps_node held).bind fun _ _ later _ =>
    (safe_qualifiedName later).bind fun _ _ last _ => safe_pure _ last

theorem safe_annot (held : invariant.holds state) : invariant.Safe annot state := by
  refine (keeps_node held).bind fun _ _ here _ => ?_
  refine (keeps_expect here (by simp) (by simp)).bind fun _ _ later _ => ?_
  exact (safe_typeRef later).bind fun _ _ last _ => safe_assemble _ last

theorem safe_annotations (held : invariant.holds state) : invariant.Safe annotations state :=
  safe_collect held fun later => safe_whenNext _ later safe_annot

theorem safe_warnRepeated (seen : Modifiers) (run : List (Modifier × Position))
    (known : ∀ item ∈ run, invariant.known item.2) (held : invariant.holds state) :
    invariant.Safe (warnRepeated seen run) state := by
  induction run generalizing seen state with
  | nil => exact safe_pure _ held
  | cons item run ih =>
      obtain ⟨knownFirst, knownRest⟩ := List.forall_mem_cons.mp known
      simp only [warnRepeated]
      split
      · exact (safe_report _ _ held knownFirst).bind fun _ _ later _ => ih _ knownRest later
      · exact ih _ knownRest held

theorem safe_modifiers (held : invariant.holds state) : invariant.Safe modifiers state := by
  refine (keeps_collect (fun item => invariant.known item.2) held fun later => ?_).bind
    fun run _ later known => ?_
  · refine keeps_takeWhen _ later ?_ ?_ ?_
    · intro token last
      simp [last]
    · intro token invalid
      simp [invalid]
    · intro token item known found
      split at found
      · exact Option.some.inj found ▸ known
      · cases found
  · exact (safe_warnRepeated _ run known later).bind fun _ _ last _ => safe_pure _ last

theorem keeps_demand (kinds : List Kind) (held : invariant.holds state) :
    invariant.Keeps (demand kinds) state fun token after =>
      invariant.known token.position ∧ token.kind ∈ kinds ∧ token = after.head := by
  refine (keeps_current held).bind fun token after later ⟨known, isHead, same⟩ => ?_
  split
  · rename_i wanted
    exact keeps_pure later ⟨known, wanted, isHead.trans same.head.symm⟩
  · exact keeps_refuseExpected kinds later

theorem safe_literal (held : invariant.holds state) : invariant.Safe literal state := by
  refine (keeps_demand _ held).bind fun token here later ⟨known, wanted, isHead⟩ => ?_
  refine (keeps_node later).bind fun info after last ⟨_, unmoved⟩ => ?_
  split
  · -- Making a node leaves the demanded token at the front.
    have more : here.head.kind ≠ .fileEnd := by
      rintro last
      simp [isHead, last, literalKinds] at wanted
    have ahead : after.ahead = [token] ++ here.ahead.drop 1 := by
      rw [unmoved, isHead]
      exact State.ahead_eq_cons more
    refine (safe_discard last ahead fun other member => ?_).bind fun _ _ final _ => safe_pure _ final
    rintro invalid
    rw [List.mem_singleton.mp member] at invalid
    simp [invalid, literalKinds] at wanted
  · exact keeps_refuse _ last known

theorem keeps_preamble (held : invariant.holds state) :
    invariant.Keeps preamble state fun start _ => invariant.known start.info.position := by
  refine (keeps_node held).bind fun info _ here ⟨known, _⟩ => ?_
  refine (safe_annotations here).bind fun _ _ later _ => ?_
  exact (safe_modifiers later).bind fun _ _ last _ => keeps_pure last known

theorem safe_declaredName (held : invariant.holds state) : invariant.Safe declaredName state :=
  (keeps_current held).bind fun _ _ later _ =>
    (safe_simpleName later).bind fun _ _ last _ => safe_pure _ last

theorem safe_optionalType (held : invariant.holds state) : invariant.Safe optionalType state :=
  safe_after held (by simp) (by simp) safe_typeRef

theorem safe_initials (kind : FieldKind) (held : invariant.holds state) :
    invariant.Safe (initials kind) state := by
  refine (safe_after held (by simp) (by simp) fun later => safe_commaSeparated later safe_literal).bind ?_
  rintro (_ | literals) after last _
  · cases kind with
    | mutable => exact safe_pure [] last
    | constant => exact keeps_refuseExpected _ last
  · exact safe_pure literals last

theorem safe_field {start : Preamble} (kind : FieldKind) (known : invariant.known start.info.position)
    (held : invariant.holds state) : invariant.Safe (field start kind) state := by
  refine (keeps_expect held (by simp) (by simp)).bind fun _ _ first _ => ?_
  refine (safe_commaSeparated first safe_declaredName).bind fun _ _ second _ => ?_
  refine (safe_optionalType second).bind fun _ _ third _ => ?_
  refine (safe_initials kind third).bind fun _ _ last _ => ?_
  split
  · exact keeps_refuse _ last known
  · exact safe_assemble _ last

theorem safe_param (held : invariant.holds state) : invariant.Safe param state := by
  refine (keeps_node held).bind fun _ _ first _ => ?_
  refine (safe_simpleName first).bind fun _ _ second _ => ?_
  refine (keeps_expect second (by simp) (by simp)).bind fun _ _ third _ => ?_
  exact (safe_typeRef third).bind fun _ _ last _ => safe_assemble _ last

theorem safe_paramList (held : invariant.holds state) : invariant.Safe paramList state := by
  refine (safe_check _ held).bind fun closed _ later _ => ?_
  cases closed with
  | true => exact safe_pure [] later
  | false => exact safe_commaSeparated later safe_param

theorem safe_params (held : invariant.holds state) : invariant.Safe params state := by
  refine (keeps_expect held (by simp) (by simp)).bind fun _ _ inside _ => ?_
  refine (safe_paramList inside).bind fun _ _ later _ => ?_
  exact (keeps_expect later (by simp) (by simp)).bind fun _ _ last _ => safe_pure _ last

theorem safe_blockStep (progress : BlockProgress) (held : invariant.holds state) :
    invariant.Safe (blockStep progress) state := by
  refine (keeps_takeWhen (fun _ => True) held ?_ ?_ fun _ _ _ _ => trivial).bind ?_
  · intro token last
    simp [last, isBlockToken]
  · intro token invalid
    simp [invalid, isBlockToken]
  · rintro (_ | kind) after last _
    · exact keeps_refuseExpected _ last
    · exact safe_pure _ last

theorem safe_block (held : invariant.holds state) : invariant.Safe block state := by
  refine (keeps_node held).bind fun _ _ here _ => ?_
  refine (keeps_expect here (by simp) (by simp)).bind fun _ _ inside _ => ?_
  exact (safe_loop inside _ fun progress _ later => safe_blockStep progress later).bind
    fun _ _ last _ => safe_pure _ last

theorem safe_method (start : Preamble) (held : invariant.holds state) :
    invariant.Safe (method start) state := by
  refine (keeps_expect held (by simp) (by simp)).bind fun _ _ first _ => ?_
  refine (safe_simpleName first).bind fun _ _ second _ => ?_
  refine (safe_params second).bind fun _ _ third _ => ?_
  refine (safe_optionalType third).bind fun _ _ fourth _ => ?_
  exact (safe_whenNext _ fourth safe_block).bind fun _ _ last _ => safe_assemble _ last

theorem safe_memberAfter {start : Preamble} (known : invariant.known start.info.position)
    (held : invariant.holds state) : invariant.Safe (memberAfter start) state := by
  refine (keeps_current held).bind fun _ _ here _ => ?_
  split
  · exact (safe_field _ known here).bind fun _ _ last _ => safe_pure _ last
  · exact (safe_field _ known here).bind fun _ _ last _ => safe_pure _ last
  · exact (safe_method start here).bind fun _ _ last _ => safe_pure _ last
  · exact (safe_reportExpected _ here).bind fun _ _ last _ => safe_pure _ last

theorem safe_memberStep (held : invariant.holds state) : invariant.Safe memberStep state := by
  refine (safe_terminators held).bind fun _ _ here _ => (safe_check _ here).bind fun closed _ later _ => ?_
  cases closed with
  | true => exact safe_pure none later
  | false => exact (keeps_preamble later).bind fun _ _ last known => safe_memberAfter known last

theorem meets_members : (collect memberStep consumesWhen_memberStep).Meets state fun _ after =>
    0 < after.errors ∨ after.head.kind = .mark .rightBrace := by
  refine meets_collect (fun _ _ after => 0 < after.errors ∨ after.head.kind = .mark .rightBrace)
    (fun before => meets_memberStep.mono ?_) state
  rintro (_ | member) after leads answer
  · by_cases clean : after.errors = before.errors
    · exact .inr (answer.2 clean)
    · have more := leads.errors_le
      exact .inl (by omega)
  · exact fun _ _ ended => ended

theorem finishes_body (held : invariant.holds state) : invariant.Finishes body state := by
  refine (keeps_node held).bind_finishes fun _ _ here _ => ?_
  refine (keeps_expect here (by simp) (by simp)).bind_finishes fun _ _ inside _ => ?_
  refine ((safe_collect inside safe_memberStep).and meets_members).bind_finishes
    fun _ _ last ⟨_, closed⟩ => ?_
  exact Finishes.bind (invariant.drops last closed) fun _ _ done => finishes_assemble _ done

theorem safe_bases (held : invariant.holds state) : invariant.Safe bases state :=
  (safe_after held (by simp) (by simp) fun later => safe_commaSeparated later safe_typeRef).bind
    fun _ _ last _ => safe_pure _ last

theorem finishes_typeDecl (held : invariant.holds state) : invariant.Finishes typeDecl state := by
  refine (keeps_preamble held).bind_finishes fun _ _ first _ => ?_
  refine (keeps_expect first (by simp) (by simp)).bind_finishes fun _ _ second _ => ?_
  refine (safe_qualifiedName second).bind_finishes fun _ _ third _ => ?_
  refine (safe_bases third).bind_finishes fun _ _ fourth _ => ?_
  refine (safe_terminators fourth).bind_finishes fun _ _ here _ => .bind ?_ fun _ _ done =>
    finishes_assemble _ done
  refine (safe_check _ here).bind_finishes fun found _ later _ => ?_
  cases found with
  | false => exact .inl later
  | true => exact (finishes_body later).bind fun _ _ done => finishes_pure _ done

theorem safe_packageClause (held : invariant.holds state) : invariant.Safe packageClause state := by
  refine (keeps_node held).bind fun _ _ here _ => ?_
  refine (keeps_expect here (by simp) (by simp)).bind fun _ _ later _ => ?_
  exact (safe_qualifiedName later).bind fun _ _ last _ => safe_pure _ last

theorem safe_importClause (held : invariant.holds state) : invariant.Safe importClause state := by
  refine (keeps_node held).bind fun info _ first ⟨known, _⟩ => ?_
  refine (keeps_expect first (by simp) (by simp)).bind fun _ _ second _ => ?_
  refine (safe_qualifiedName second).bind fun name here third _ => ?_
  refine ((safe_startsWith _ third).and (yields_startsWith (by simp) (by simp)).meets).bind ?_
  rintro (_ | _) after last ⟨_, isFound, same⟩
  · simp only [Bool.false_eq_true, if_false]
    split
    · exact safe_pure _ last
    · exact keeps_refuse _ last known
  · obtain ⟨dot, star, rest, ahead, isDot, isStar⟩ := isFound.mp rfl
    have both : after.ahead = [dot, star] ++ rest := same.ahead.trans ahead
    refine (safe_discard last both ?_).bind fun _ _ final _ => safe_pure _ final
    simp [isDot, isStar]

theorem safe_importStep (held : invariant.holds state) : invariant.Safe importStep state := by
  refine (safe_check _ held).bind fun found _ here _ => ?_
  cases found with
  | false => exact safe_pure none here
  | true =>
      refine (safe_importClause here).attempt.bind ?_
      rintro (_ | clause) after later _
      · exact safe_pure none later
      · exact (safe_terminators later).bind fun _ _ last _ => safe_pure _ last

theorem spent_typeStep (spent : invariant.spent state) :
    typeStep.Yields state fun _ after => invariant.spent after := by
  have skips : (terminators : Rule σ Unit).Yields state fun _ after => invariant.spent after := by
    refine Yields.bind (yields_collect_nil ?_) fun _ _ _ last => yields_pure last
    exact spent_takeWhen spent fun token last => by simp [last, isTerminator]
  refine skips.bind fun _ _ _ here => (spent_check _ here).bind fun ended _ _ found => ?_
  rw [found.1.mpr rfl]
  exact yields_pure found.2

theorem finishes_typeStep (done : invariant.Done state) : invariant.Finishes typeStep state := by
  rcases done with held | spent
  · refine (safe_terminators held).bind_finishes fun _ _ here _ => ?_
    refine (safe_check _ here).bind_finishes fun ended _ later _ => ?_
    cases ended with
    | true => exact .inl later
    | false => exact (finishes_typeDecl later).bind fun _ _ done => finishes_pure _ done
  · obtain ⟨answer, after, ran, last⟩ := spent_typeStep spent
    rw [Finishes, ran]
    exact .inr last

theorem finishes_unit (file : String) (held : invariant.holds state) :
    invariant.Finishes (unit file) state := by
  refine (keeps_node held).bind_finishes fun _ _ first _ => ?_
  refine (safe_terminators first).bind_finishes fun _ _ second _ => ?_
  refine (safe_whenNext _ second safe_packageClause).bind_finishes fun _ _ third _ => ?_
  refine (safe_terminators third).bind_finishes fun _ _ fourth _ => ?_
  refine (safe_collect fourth safe_importStep).bind_finishes fun _ _ fifth _ => ?_
  refine (safe_terminators fifth).bind_finishes fun _ _ last _ => ?_
  refine (finishes_typeDecl last).bind fun _ _ done => ?_
  exact (finishes_collect done finishes_typeStep).bind fun _ _ done => finishes_assemble _ done

end Grammar

theorem Invariant.done_parse (state : State σ)
    (held : invariant.holds { state with session := state.session.begin state.file }) :
    ∃ after, invariant.Done after ∧
      state.parse.2 = { after with session := after.session.finish } :=
  ⟨_, Grammar.finishes_unit _ held, rfl⟩

end Beagle
