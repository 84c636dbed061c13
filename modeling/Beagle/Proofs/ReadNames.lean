import Beagle.Proofs.Construction
import Beagle.Proofs.Identifiers
import Beagle.Proofs.Reading.Unit

/-!
The names in a unit.  Whatever else is wrong with the tokens, if their identifiers are words, then every
name that a rule reads from them is made of words, and so are the names in a unit that is parsed.
-/

namespace Beagle

open Spelling

def Field.Proper (field : Field) : Prop :=
  ∀ type ∈ field.type, type.name.Proper

def Grammar.Member.Proper : Grammar.Member → Prop
  | .field it => it.Proper
  | .method it => Lexeme.IsWord it.name

structure Body.Proper (body : Body) : Prop where
  vars : ∀ field ∈ body.vars, field.Proper
  consts : ∀ field ∈ body.consts, field.Proper
  methods : ∀ method ∈ body.methods, Lexeme.IsWord method.name

structure TypeDecl.Proper (decl : TypeDecl) : Prop where
  name : decl.name.Proper
  bases : ∀ base ∈ decl.bases, base.name.Proper
  body : ∀ body ∈ decl.body, body.Proper

structure SourceUnit.Proper (unit : SourceUnit) : Prop where
  package : ∀ clause ∈ unit.package, clause.name.Proper
  types : ∀ decl ∈ unit.types, decl.Proper

theorem SourceUnit.Proper.nameOf {unit : SourceUnit} {decl : TypeDecl} (proper : unit.Proper)
    (listed : decl ∈ unit.types) : (unit.nameOf decl).Proper := by
  refine (proper.types decl listed).name.resolve ?_
  intro package found
  obtain ⟨clause, isClause, rfl⟩ := Option.map_eq_some_iff.mp found
  exact proper.package clause isClause

section Building

variable {info : NodeInfo} {annotations : List Annot} {modifiers : Option Modifiers}

theorem forall_mem_concat {α : Type} {good : α → Prop} {items : List α} {item : α}
    (before : ∀ other ∈ items, good other) (holds : good item) : ∀ other ∈ items ++ [item], good other := by
  rw [List.forall_mem_append, List.forall_mem_singleton]
  exact ⟨before, holds⟩

theorem Field.type_of_build {kind : FieldKind} {type : Option TypeRef} {declarators : List Declarator}
    {field : Field} (built : build info kind annotations modifiers type declarators = .ok field) :
    field.type = type.map (owned info.id) := by
  obtain ⟨start, made, built⟩ := ok_of_bind built
  have startType : start.type = type.map (owned info.id) := by
    obtain ⟨_, _, made⟩ := ok_of_bind made
    obtain ⟨linked, attached, made⟩ := ok_of_bind made
    obtain rfl := Except.ok.inj made
    exact eq_map_owned_of_option_mapM attached
  refine kept_of_foldlM (fun field => field.type = type.map (owned info.id)) ?_ startType built
  intro whole declarator after _ step before
  obtain ⟨_, _, made⟩ := ok_of_bind step
  obtain rfl := Except.ok.inj made
  exact before

theorem Field.proper_of_build {kind : FieldKind} {type : Option TypeRef} {declarators : List Declarator}
    {field : Field} (built : build info kind annotations modifiers type declarators = .ok field)
    (proper : ∀ value ∈ type, value.name.Proper) : field.Proper := by
  intro value found
  rw [type_of_build built] at found
  obtain ⟨original, isOriginal, rfl⟩ := Option.map_eq_some_iff.mp found
  exact proper original isOriginal

theorem Method.name_of_build {name : String} {params : List Param} {result : Option TypeRef}
    {body : Option Block} {method : Method}
    (built : build info annotations modifiers name params result body = .ok method) :
    method.name = name := by
  obtain ⟨start, made, built⟩ := ok_of_bind built
  obtain ⟨filled, added, built⟩ := ok_of_bind built
  obtain ⟨answering, set, built⟩ := ok_of_bind built
  have startName : start.name = name := by
    obtain ⟨_, _, made⟩ := ok_of_bind made
    obtain rfl := Except.ok.inj made
    rfl
  have filledName : filled.name = name := by
    refine kept_of_foldlM (fun method => method.name = name) ?_ startName added
    intro whole param after _ step before
    obtain ⟨_, _, made⟩ := ok_of_bind step
    obtain rfl := Except.ok.inj made
    exact before
  have answeringName : answering.name = name := by
    cases result with
    | none =>
        obtain rfl := Except.ok.inj set
        exact filledName
    | some type =>
        obtain ⟨_, _, made⟩ := ok_of_bind set
        obtain rfl := Except.ok.inj made
        exact filledName
  cases body with
  | none =>
      obtain rfl := Except.ok.inj built
      exact answeringName
  | some block =>
      obtain ⟨_, _, made⟩ := ok_of_bind built
      obtain rfl := Except.ok.inj made
      exact answeringName

theorem Grammar.Member.proper_of_addTo {body after : Body} {member : Grammar.Member}
    (added : member.addTo body = .ok after) (before : body.Proper) (proper : member.Proper) :
    after.Proper := by
  cases member with
  | field it =>
      obtain ⟨linked, attached, made⟩ := ok_of_bind added
      obtain rfl := eq_owned_of_attach attached
      have linkedProper : (Beagle.owned body.info.id it).Proper := proper
      split at made
      · obtain rfl := Except.ok.inj made
        exact ⟨forall_mem_concat before.vars linkedProper, before.consts, before.methods⟩
      · obtain rfl := Except.ok.inj made
        exact ⟨before.vars, forall_mem_concat before.consts linkedProper, before.methods⟩
  | method it =>
      obtain ⟨linked, attached, made⟩ := ok_of_bind added
      obtain rfl := eq_owned_of_attach attached
      obtain rfl := Except.ok.inj made
      have linkedProper : Lexeme.IsWord (Beagle.owned body.info.id it).name := proper
      exact ⟨before.vars, before.consts, forall_mem_concat before.methods linkedProper⟩

theorem Grammar.proper_of_buildBody {members : List Member} {body : Body}
    (built : buildBody info members = .ok body) (proper : ∀ member ∈ members, member.Proper) :
    body.Proper := by
  have emptyProper : (Body.make info).Proper := ⟨by simp [Body.make], by simp [Body.make], by simp [Body.make]⟩
  refine kept_of_foldlM Body.Proper ?_ emptyProper built
  intro whole member after listed added before
  exact Member.proper_of_addTo added before (proper member listed)

theorem TypeDecl.proper_of_build {name : DottedName} {bases : List TypeRef} {body : Option Body}
    {decl : TypeDecl} (built : build info annotations modifiers name bases body = .ok decl)
    (proper : name.Proper) (basesProper : ∀ base ∈ bases, base.name.Proper)
    (bodyProper : ∀ part ∈ body, part.Proper) : decl.Proper := by
  obtain ⟨start, made, built⟩ := ok_of_bind built
  obtain ⟨based, added, built⟩ := ok_of_bind built
  have startProper : start.Proper := by
    obtain ⟨_, _, made⟩ := ok_of_bind made
    obtain rfl := Except.ok.inj made
    exact ⟨proper, by simp, by simp⟩
  have basedProper : based.Proper := by
    refine kept_of_foldlM TypeDecl.Proper ?_ startProper added
    intro whole base after member step before
    obtain ⟨linked, attached, made⟩ := ok_of_bind step
    obtain rfl := eq_owned_of_attach attached
    obtain rfl := Except.ok.inj made
    have linkedProper : (owned whole.info.id base).name.Proper := basesProper base member
    exact ⟨before.name, forall_mem_concat before.bases linkedProper, before.body⟩
  cases body with
  | none =>
      obtain rfl := Except.ok.inj built
      exact basedProper
  | some body =>
      obtain ⟨linked, attached, made⟩ := ok_of_bind built
      obtain rfl := eq_owned_of_attach attached
      obtain rfl := Except.ok.inj made
      have same := bodyProper body rfl
      refine ⟨basedProper.name, basedProper.bases, ?_⟩
      rintro _ ⟨⟩
      exact ⟨same.vars, same.consts, same.methods⟩

theorem SourceUnit.proper_of_build {file : String} {package : Option PackageClause}
    {imports : List ImportClause} {types : List TypeDecl} {unit : SourceUnit}
    (built : build info file package imports types = .ok unit)
    (proper : ∀ clause ∈ package, clause.name.Proper) (typesProper : ∀ decl ∈ types, decl.Proper) :
    unit.Proper := by
  obtain ⟨start, made, built⟩ := ok_of_bind built
  obtain ⟨imported, added, built⟩ := ok_of_bind built
  have startProper : start.Proper := by
    obtain ⟨linked, attached, made⟩ := ok_of_bind made
    obtain rfl := eq_map_owned_of_option_mapM attached
    obtain rfl := Except.ok.inj made
    refine ⟨?_, by simp⟩
    intro clause found
    obtain ⟨original, isOriginal, rfl⟩ := Option.map_eq_some_iff.mp found
    exact proper original isOriginal
  have importedProper : imported.Proper := by
    refine kept_of_foldlM SourceUnit.Proper ?_ startProper added
    intro whole clause after _ step before
    obtain ⟨_, _, made⟩ := ok_of_bind step
    obtain rfl := Except.ok.inj made
    exact ⟨before.package, before.types⟩
  refine kept_of_foldlM SourceUnit.Proper ?_ importedProper built
  intro whole decl after member step before
  obtain ⟨linked, attached, made⟩ := ok_of_bind step
  obtain rfl := eq_owned_of_attach attached
  obtain rfl := Except.ok.inj made
  have same := typesProper decl member
  have linkedProper : (owned whole.info.id decl).Proper := ⟨same.name, same.bases, same.body⟩
  exact ⟨before.package, forall_mem_concat before.types linkedProper⟩

end Building

namespace Rule

variable {σ : Type} [TokenSource σ] {α β : Type}

def Reads (rule : Rule σ α) (good : α → Prop) : Prop :=
  ∀ state : State σ, Worded state.ahead → rule.Answers state fun value _ => good value

variable {rule : Rule σ α} {next : α → Rule σ β} {good : α → Prop} {better : β → Prop}

theorem reads_any : rule.Reads fun _ => True :=
  fun _ _ => answers_any

theorem reads_pure {value : α} (holds : good value) : (pure value : Rule σ α).Reads good :=
  fun _ _ => answers_pure holds

theorem reads_assemble {part : Assembly α} (holds : ∀ value, part = .ok value → good value) :
    (assemble part : Rule σ α).Reads good :=
  fun _ _ => answers_assemble holds

theorem reads_refuse {position : Position} {complaint : Complaint} :
    (refuse position complaint : Rule σ α).Reads good := by
  intro state _ value after ran
  cases ran

theorem Reads.bind (first : rule.Reads good)
    (second : ∀ value, good value → (next value).Reads better) : (rule >>= next).Reads better := by
  intro state worded
  refine (first state worded).bind ?_
  intro value after leads holds
  exact second value holds after (worded.subset leads.ahead.subset)

theorem reads_collect {step : Rule σ (Option α)}
    {progress : step.ConsumesWhen fun item => item.isSome}
    (steps : step.Reads fun answer => ∀ item ∈ answer, good item) :
    (collect step progress).Reads fun items => ∀ item ∈ items, good item := by
  intro state worded
  refine (answers_collect (fun state items _ => Worded state.ahead → ∀ item ∈ items, good item)
    ?_ state).mono fun _ _ _ all => all worded
  rintro state (_ | item) after ran
  · simp [Either]
  · intro items final others worded
    rw [List.forall_mem_cons]
    exact ⟨steps state worded _ after ran item rfl,
      others (worded.subset (leads_of_run ran).ahead.subset)⟩

theorem reads_whenNext {kind : Kind} (reads : rule.Reads good) :
    (whenNext kind rule).Reads fun answer => ∀ value ∈ answer, good value := by
  refine reads_any.bind fun found _ => ?_
  cases found with
  | false => exact reads_pure (by simp)
  | true => exact reads.bind fun value holds => reads_pure (by simpa using holds)

theorem reads_after {kind : Kind} (reads : rule.Reads good) :
    (after kind rule).Reads fun answer => ∀ value ∈ answer, good value := by
  refine reads_any.bind fun accepted _ => ?_
  cases accepted with
  | false => exact reads_pure (by simp)
  | true => exact reads.bind fun value holds => reads_pure (by simpa using holds)

theorem reads_commaSeparated (reads : rule.Reads good) :
    (commaSeparated rule).Reads fun values => ∀ value ∈ values, good value := by
  refine reads.bind fun first holds => (reads_collect (reads_after reads)).bind fun rest others => ?_
  exact reads_pure (List.forall_mem_cons.mpr ⟨holds, others⟩)

end Rule

namespace Grammar

open Rule

variable {σ : Type} [TokenSource σ]

theorem reads_simpleName : (simpleName : Rule σ String).Reads Lexeme.IsWord := by
  intro state worded
  refine Answers.mono meets_simpleName_took.answers ?_
  rintro _ after _ ⟨token, found, rfl, took⟩
  exact worded token (by simp [took.ahead]) found

theorem reads_segmentStep : (segmentStep : Rule σ (Option String)).Reads fun answer =>
    ∀ segment ∈ answer, Lexeme.IsWord segment := by
  refine reads_any.bind fun found _ => ?_
  cases found with
  | false => exact reads_pure (by simp)
  | true =>
      refine reads_any.bind fun _ _ => reads_simpleName.bind fun segment isWord => ?_
      exact reads_pure (by simpa using isWord)

theorem reads_qualifiedName : (qualifiedName : Rule σ DottedName).Reads DottedName.Proper := by
  refine reads_simpleName.bind fun first isWord => (reads_collect reads_segmentStep).bind ?_
  intro rest words
  exact reads_pure (List.forall_mem_cons.mpr ⟨isWord, words⟩)

theorem reads_typeRef : (typeRef : Rule σ TypeRef).Reads fun type => type.name.Proper :=
  reads_any.bind fun _ _ => reads_qualifiedName.bind fun _ proper => reads_pure proper

theorem reads_bases : (bases : Rule σ (List TypeRef)).Reads fun bases =>
    ∀ base ∈ bases, base.name.Proper := by
  refine (reads_after (reads_commaSeparated reads_typeRef)).bind fun answer holds => reads_pure ?_
  cases answer with
  | none => simp
  | some bases => exact holds bases rfl

theorem reads_optionalType : (optionalType : Rule σ (Option TypeRef)).Reads fun type =>
    ∀ value ∈ type, value.name.Proper :=
  reads_after reads_typeRef

theorem reads_field (start : Preamble) (kind : FieldKind) :
    (field start kind : Rule σ Field).Reads Field.Proper := by
  refine reads_any.bind fun _ _ => reads_any.bind fun names _ => ?_
  refine reads_optionalType.bind fun type proper => reads_any.bind fun initials _ => ?_
  split
  · exact reads_refuse
  · exact reads_assemble fun field built => Field.proper_of_build built proper

theorem reads_method (start : Preamble) : (method start : Rule σ Method).Reads fun method =>
    Lexeme.IsWord method.name := by
  refine reads_any.bind fun _ _ => reads_simpleName.bind fun name isWord => ?_
  refine reads_any.bind fun _ _ => reads_any.bind fun _ _ => reads_any.bind fun _ _ => ?_
  refine reads_assemble fun method built => ?_
  rw [Method.name_of_build built]
  exact isWord

theorem reads_memberAfter (start : Preamble) : (memberAfter start : Rule σ (Option Member)).Reads
    fun answer => ∀ member ∈ answer, member.Proper := by
  refine reads_any.bind fun token _ => ?_
  split
  · exact (reads_field start .mutable).bind fun field proper => reads_pure (by simpa [Member.Proper] using proper)
  · exact (reads_field start .constant).bind fun field proper => reads_pure (by simpa [Member.Proper] using proper)
  · exact (reads_method start).bind fun method isWord => reads_pure (by simpa [Member.Proper] using isWord)
  · exact reads_any.bind fun _ _ => reads_pure (by simp)

theorem reads_memberStep : (memberStep : Rule σ (Option Member)).Reads fun answer =>
    ∀ member ∈ answer, member.Proper := by
  refine reads_any.bind fun _ _ => reads_any.bind fun closed _ => ?_
  cases closed with
  | true => exact reads_pure (by simp)
  | false => exact reads_any.bind fun start _ => reads_memberAfter start

theorem reads_body : (body : Rule σ Body).Reads Body.Proper := by
  refine reads_any.bind fun info _ => reads_any.bind fun _ _ => ?_
  refine (reads_collect reads_memberStep).bind fun members proper => reads_any.bind fun _ _ => ?_
  exact reads_assemble fun body built => proper_of_buildBody built proper

theorem reads_typeDecl : (typeDecl : Rule σ TypeDecl).Reads TypeDecl.Proper := by
  refine reads_any.bind fun start _ => reads_any.bind fun _ _ => ?_
  refine reads_qualifiedName.bind fun name proper => reads_bases.bind fun bases basesProper => ?_
  refine reads_any.bind fun _ _ => (reads_whenNext reads_body).bind fun body bodyProper => ?_
  exact reads_assemble fun decl built => TypeDecl.proper_of_build built proper basesProper bodyProper

theorem reads_packageClause : (packageClause : Rule σ PackageClause).Reads fun clause =>
    clause.name.Proper :=
  reads_any.bind fun _ _ => reads_any.bind fun _ _ => reads_qualifiedName.bind fun _ proper =>
    reads_pure proper

theorem reads_typeStep : (typeStep : Rule σ (Option TypeDecl)).Reads fun answer =>
    ∀ decl ∈ answer, decl.Proper := by
  refine reads_any.bind fun _ _ => reads_any.bind fun ended _ => ?_
  cases ended with
  | true => exact reads_pure (by simp)
  | false => exact reads_typeDecl.bind fun decl proper => reads_pure (by simpa using proper)

theorem reads_unit (file : String) : (unit file : Rule σ SourceUnit).Reads SourceUnit.Proper := by
  refine reads_any.bind fun info _ => reads_any.bind fun _ _ => ?_
  refine (reads_whenNext reads_packageClause).bind fun package packageProper => ?_
  refine reads_any.bind fun _ _ => reads_any.bind fun imports _ => reads_any.bind fun _ _ => ?_
  refine reads_typeDecl.bind fun first firstProper => (reads_collect reads_typeStep).bind ?_
  intro rest restProper
  refine reads_assemble fun unit built => SourceUnit.proper_of_build built packageProper ?_
  exact List.forall_mem_cons.mpr ⟨firstProper, restProper⟩

end Grammar

namespace State

variable {σ : Type} [TokenSource σ] {state : State σ} {unit : SourceUnit}

theorem proper_of_parse (worded : Worded state.ahead) (parsed : state.parse.1 = .ok unit) :
    unit.Proper := by
  let begun := { state with session := state.session.begin state.file }
  exact Grammar.reads_unit state.file begun worded unit _ (Prod.ext parsed rfl)

theorem worded_ofSource (source : SourceText) (capacity : Nat) (session : Session) :
    Worded (ofSource source capacity session).ahead := by
  intro token member isIdentifier
  have ahead : token ∈ (Window.ofSource source capacity).ahead := member
  rw [Window.ahead_ofSource] at ahead
  exact SourceText.isWord_of_mem_ahead ahead isIdentifier

end State

end Beagle
