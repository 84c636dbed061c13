import Beagle.Proofs.Reading.Name

/-!
Readings of fields, methods and bodies.
-/

namespace Beagle

open Spelling

namespace Declarator

variable {names : List (String × Position)} {initials : List Literal}

theorem map_ofDeclared_pair (parent : Nat) :
    ((pair names initials).map (Declarator.owned parent)).map ofDeclared = names.map declared := by
  fun_induction pair names initials with
  | case1 => rfl
  | case2 name position names ih => exact congrArg (declared (name, position) :: ·) ih
  | case3 name position names initial initials ih => exact congrArg (declared (name, position) :: ·) ih

theorem initial_pair_nil : ∀ declarator ∈ pair names [], declarator.initial = none := by
  induction names with
  | nil => simp [pair]
  | cons name names ih => simpa [pair] using ih

theorem map_initial_pair (enough : initials.length = names.length) :
    (pair names initials).map Declarator.initial = initials.map some := by
  fun_induction pair names initials with
  | case1 initials => simp [List.eq_nil_of_length_eq_zero enough]
  | case2 => simp at enough
  | case3 name position names initial initials ih => simpa using ih (by simpa using enough)

theorem filterMap_initial_pair (enough : initials = [] ∨ initials.length = names.length) :
    (pair names initials).filterMap Declarator.initial = initials := by
  rcases enough with rfl | enough
  · exact List.filterMap_eq_nil_iff.mpr initial_pair_nil
  · calc (pair names initials).filterMap Declarator.initial
        = ((pair names initials).map Declarator.initial).filterMap id := by
          rw [List.filterMap_map]
          rfl
      _ = (initials.map some).filterMap id := by rw [map_initial_pair enough]
      _ = initials := by simp [List.filterMap_map]

theorem loose_initial_of_mem_pair (enough : initials = [] ∨ initials.length = names.length)
    (loose : ∀ initial ∈ initials, Loose initial) :
    ∀ declarator ∈ pair names initials, ∀ initial ∈ declarator.initial, Loose initial := by
  intro declarator member initial isInitial
  refine loose initial ?_
  rw [← filterMap_initial_pair enough]
  exact List.mem_filterMap.mpr ⟨declarator, member, isInitial⟩

theorem filterMap_initial_map_owned (declarators : List Declarator) (parent : Nat) :
    (declarators.map (Declarator.owned parent)).filterMap Declarator.initial =
      (declarators.filterMap Declarator.initial).map (Beagle.owned parent) := by
  rw [List.filterMap_map, List.map_filterMap]
  rfl

end Declarator

namespace Grammar

open Rule

variable {σ : Type} [TokenSource σ] {before state : State σ} {start : Preamble}

def Begun (before after : State σ) (start : Preamble) : Prop :=
  ∃ middle, Opened before middle start.info ∧
    Answer middle after (ofAnnots start.annotations * ofModifiers start.modifiers)
      (start.annotations.map .annot)

theorem Begun.loose (begun : Begun before state start) : ∀ annot ∈ start.annotations, Loose annot := by
  obtain ⟨_, _, answer⟩ := begun
  exact fun annot member => answer.loose (.annot annot) (List.mem_map_of_mem member)

theorem Begun.close {after : State σ} {text : Language Token} {parts : List Node} (node : Node)
    (begun : Begun before state start) (info : node.info = start.info)
    (inside : Answer state after text parts) (starts : [] ∉ text)
    (owns : node.children.Perm
      ((start.annotations.map Node.annot ++ parts).map (Node.ownedBy node.id))) :
    Answer before after
      (placed node.info (ofAnnots start.annotations * ofModifiers start.modifiers * text)) [node] := by
  obtain ⟨middle, opened, answer⟩ := begun
  refine Opened.close node (info ▸ opened) (answer.append inside) ?_ owns
  simp [starts]

theorem meets_preamble : (preamble : Rule σ Preamble).Meets state fun start after =>
    Begun state after start := by
  refine meets_node.bind fun info opened _ made => ?_
  refine meets_annotations.bind fun annotations middle _ first => ?_
  refine meets_modifiers.bind fun modifiers after _ second => meets_pure ⟨opened, made, ?_⟩
  simpa using first.append second

theorem meets_declaredName : (declaredName : Rule σ (String × Position)).Meets state
    fun name after => Answer state after (declared name) [] := by
  refine yields_current.meets.bind fun token start _ ⟨isHead, same⟩ => ?_
  refine meets_simpleName_took.bind fun _ after _ ⟨name, found, text, took⟩ => meets_pure ?_
  have first : token = name := by
    rw [isHead, ← same.head, State.head_of_ahead took.ahead]
  exact .same_left same (.took took ⟨name, found, text, by rw [first], rfl⟩)

theorem meets_optionalType : (optionalType : Rule σ (Option TypeRef)).Meets state
    fun type after => Answer state after (ofOptionalType type) (type.toList.map .typeRef) := by
  refine (meets_after (by simp) fun _ => meets_typeRef).mono fun type after _ either => ?_
  exact .ofSingles (.ofEither either)

def ofValues (kind : FieldKind) (initials : List Literal) : Language Token :=
  {tokens | (kind = .mutable ∧ initials = [] ∧ tokens = []) ∨
    tokens ∈ mark .assign * separated .comma (initials.map ofLiteral)}

theorem meets_initials (kind : FieldKind) : (initials kind : Rule σ (List Literal)).Meets state
    fun initials after => Answer state after (ofValues kind initials) (initials.map .literal) := by
  refine (meets_after (by simp) fun _ => meets_commaSeparated fun _ => meets_literal).bind ?_
  rintro (_ | literals) after _ answer
  · cases kind with
    | mutable =>
        exact meets_pure ((Answer.same answer).weaken fun tokens spells => .inl ⟨rfl, rfl, spells⟩)
    | constant => exact meets_refuseExpected _
  · exact meets_pure (.ofSingles (Answer.weaken answer fun tokens spells => .inr spells))

theorem mem_ofInitials_pair {kind : FieldKind} {names : List (String × Position)}
    {initials : List Literal} {tokens : List Token} (parent : Nat)
    (enough : initials = [] ∨ initials.length = names.length)
    (spells : tokens ∈ ofValues kind initials) :
    tokens ∈ ofInitials kind ((Declarator.pair names initials).map (Declarator.owned parent)) := by
  rcases spells with ⟨isMutable, rfl, rfl⟩ | spells
  · refine .inl ⟨isMutable, ?_, rfl⟩
    intro declarator member
    obtain ⟨other, found, rfl⟩ := List.mem_map.mp member
    simp [Declarator.owned, Declarator.initial_pair_nil other found]
  · have some : initials ≠ [] := by
      rintro rfl
      obtain ⟨_, _, _, absurd, _⟩ := Language.mem_mul.mp spells
      exact absurd
    refine .inr ⟨initials.map (owned parent), ?_, ?_⟩
    · have values := Declarator.map_initial_pair (enough.resolve_left some)
      have linked := congrArg (List.map (Option.map (owned parent))) values
      simpa [List.map_map, Function.comp_def, Declarator.owned] using linked
    · rw [List.map_map]
      exact spells

theorem ofAnnots_map_owned (annotations : List Annot) (parent : Nat) :
    ofAnnots (annotations.map (owned parent)) = ofAnnots annotations := by
  rw [ofAnnots, List.map_map]
  rfl

theorem ofOptionalType_map_owned (type : Option TypeRef) (parent : Nat) :
    ofOptionalType (type.map (owned parent)) = ofOptionalType type := by
  cases type <;> rfl

theorem meets_field (kind : FieldKind) (begun : Begun before state start) :
    (field start kind : Rule σ Field).Meets state fun field after =>
      Answer before after (ofField field) [.field field] := by
  refine (meets_word (by simp)).bind fun _ first _ wordRead => ?_
  refine (meets_commaSeparated fun _ => meets_declaredName).bind fun names second _ namesRead => ?_
  refine meets_optionalType.bind fun type third _ typeRead => ?_
  refine (meets_initials kind).bind fun initials after _ initialsRead => ?_
  split
  · exact meets_refuse _ _
  · rename_i enough
    have enough : initials = [] ∨ initials.length = names.length := by
      simpa [Classical.or_iff_not_imp_left] using enough
    have looseType : ∀ value ∈ type, Loose value := fun value member =>
      typeRead.loose (.typeRef value) (by simpa using member)
    have looseInitials := Declarator.loose_initial_of_mem_pair enough fun initial member =>
      initialsRead.loose (.literal initial) (List.mem_map_of_mem member)
    refine (yields_assemble (Field.build_eq begun.loose looseType looseInitials) ?_).meets
    have inside := wordRead.append ((Answer.ofNone namesRead).append (typeRead.append
      (initialsRead.weaken fun tokens => mem_ofInitials_pair start.info.id enough)))
    have whole := begun.close (.field ⟨start.info, kind, start.annotations.map (owned start.info.id),
      start.modifiers, type.map (owned start.info.id),
      (Declarator.pair names initials).map (Declarator.owned start.info.id)⟩) rfl inside (by simp) ?_
    · rw [ofField, ofAnnots_map_owned, ofOptionalType_map_owned, Declarator.map_ofDeclared_pair]
      rw [mul_assoc, mul_assoc, mul_assoc]
      exact whole
    · refine .of_eq ?_
      rw [Node.children, Declarator.filterMap_initial_map_owned, Declarator.filterMap_initial_pair enough]
      simp [Node.ownedBy, Node.id, Node.info, Function.comp_def, Option.toList_map]

theorem meets_param : (param : Rule σ Param).Meets state fun param after =>
    Answer state after (ofParam param) [.param param] := by
  refine meets_node.bind fun info middle _ opened => ?_
  refine meets_simpleName.bind fun name first _ nameRead => ?_
  refine (meets_word (by simp)).bind fun _ second _ colonRead => ?_
  refine meets_typeRef.bind fun type after _ typeRead => ?_
  have loose : Loose type := typeRead.loose (.typeRef type) (by simp)
  refine (yields_assemble (Param.make_eq loose) ?_).meets
  exact Opened.close (.param ⟨info, name, owned info.id type⟩) opened
    ((nameRead.append colonRead).append typeRead) (by simp) (.refl _)

theorem meets_paramList : (paramList : Rule σ (List Param)).Meets state fun params after =>
    Answer state after (if params = [] then 1 else separated .comma (params.map ofParam))
      (params.map .param) := by
  refine (yields_check _).meets.bind fun closed start _ ⟨_, same⟩ => ?_
  cases closed with
  | true => exact meets_pure (by simpa using Answer.same same)
  | false =>
      refine (meets_commaSeparated fun _ => meets_param).mono fun params after _ answer => ?_
      refine .same_left same ((Answer.ofSingles answer).weaken fun tokens spells => ?_)
      split
      · rename_i none
        rw [none] at spells
        exact absurd spells (Language.notMem_zero _)
      · exact spells

theorem meets_params : (params : Rule σ (List Param)).Meets state fun params after =>
    Answer state after (ofParams params) (params.map .param) := by
  refine (meets_word (by simp)).bind fun _ first _ openRead => ?_
  refine meets_paramList.bind fun params second _ listRead => ?_
  refine (meets_word (by simp)).bind fun _ after _ closeRead => meets_pure ?_
  have whole := (openRead.append listRead).append closeRead
  rwa [List.nil_append, List.append_nil] at whole

theorem ofParams_map_owned (params : List Param) (parent : Nat) :
    ofParams (params.map (owned parent)) = ofParams params := by
  rw [ofParams, ofParams, List.map_map]
  simp only [List.map_eq_nil_iff]
  rfl

theorem meets_blockStep (progress : BlockProgress) :
    (blockStep progress : Rule σ (BlockProgress ⊕ Nat)).Meets state fun answer after =>
      isBlockToken state.head.kind ∧ answer = progress.take state.head.kind ∧
        state.Took state.head after := by
  refine (yields_takeWhen _ fun token last => by simp [last, isBlockToken]).meets.bind ?_
  rintro taken after _ ⟨chosen, moved⟩
  split at chosen
  · rename_i isToken
    subst chosen
    exact meets_pure ⟨isToken, rfl, moved⟩
  · subst chosen
    exact meets_refuseExpected _

def ClosesBlock (progress : BlockProgress) (before : State σ) (size : Nat) (after : State σ) : Prop :=
  after.session = before.session ∧ ∃ tokens close, before.ahead = tokens ++ close :: after.ahead ∧
    close.kind = .mark .rightBrace ∧ Balanced progress.depth tokens ∧
    (∀ token ∈ tokens, token.kind ≠ .invalid) ∧ progress.size + tokens.length = size

theorem ClosesBlock.cons {progress next : BlockProgress} {middle after : State σ} {token : Token}
    {size : Nat} (took : state.Took token middle) (valid : token.kind ≠ .invalid)
    (count : next.size = progress.size + 1)
    (balanced : ∀ tokens, Balanced progress.depth (token :: tokens) ↔ Balanced next.depth tokens)
    (closes : ClosesBlock next middle size after) : ClosesBlock progress state size after := by
  obtain ⟨session, tokens, close, ahead, found, inside, validTokens, length⟩ := closes
  refine ⟨session.trans took.session, token :: tokens, close, ?_, found, (balanced tokens).mpr inside,
    ?_, ?_⟩
  · rw [took.ahead, ahead]
    rfl
  · intro other member
    rcases List.mem_cons.mp member with rfl | later
    · exact valid
    · exact validTokens other later
  · simp only [List.length_cons]
    omega

theorem BlockProgress.take_other {progress : BlockProgress} {kind : Kind}
    (notLeft : kind ≠ .mark .leftBrace) (notRight : kind ≠ .mark .rightBrace) :
    progress.take kind = .inl ⟨progress.depth, progress.size + 1⟩ := by
  unfold BlockProgress.take
  split <;> simp_all

theorem meets_blockLoop (progress : BlockProgress) :
    (loop blockStep consumesWhen_blockStep progress : Rule σ Nat).Meets state
      (ClosesBlock progress state) := by
  refine meets_loop ClosesBlock (fun progress state => (meets_blockStep progress).mono ?_) progress state
  rintro _ middle _ ⟨isToken, rfl, took⟩
  have valid : state.head.kind ≠ .invalid := by
    intro invalid
    simp [isBlockToken, invalid] at isToken
  generalize state.head = token at took valid
  by_cases left : token.kind = .mark .leftBrace
  · rw [left]
    exact fun size final => .cons took valid rfl fun _ => balanced_cons_left_iff left
  by_cases right : token.kind = .mark .rightBrace
  · rw [right]
    obtain ⟨depth, size⟩ := progress
    cases depth with
    | zero =>
        refine ⟨took.session, [], token, took.ahead, right, balanced_nil_iff.mpr rfl, ?_, rfl⟩
        simp
    | succ depth => exact fun size final => .cons took valid rfl fun _ => balanced_cons_right_iff right
  · rw [BlockProgress.take_other left right]
    exact fun size final => .cons took valid rfl fun _ => balanced_cons_other_iff left right

theorem meets_block : (block : Rule σ Block).Meets state fun block after =>
    Answer state after (ofBlock block) [.block block] := by
  refine meets_node.bind fun info middle _ opened => ?_
  refine (meets_word (by simp)).bind fun _ inside _ openRead => ?_
  refine (meets_blockLoop _).bind fun size after leads closes => meets_pure ?_
  obtain ⟨session, tokens, close, ahead, found, balanced, valid, length⟩ := closes
  have rest : Answer inside after (ofBlockInside size * mark .rightBrace) [] := by
    refine ⟨leads, by simp, .nil _ _, fun _ => ⟨tokens ++ [close], ?_, by simp [ahead]⟩, fun _ => ?_⟩
    · exact Language.append_mem_mul ⟨balanced, valid, by simpa using length⟩ (singleton_mem_word found)
    · simp [session]
  rw [ofBlock, mul_assoc]
  exact Opened.close (.block ⟨info, size⟩) opened (openRead.append rest) (by simp) (.refl _)

theorem maybe_ofBlock_map_owned (block : Option Block) (parent : Nat) :
    maybe ofBlock (block.map (owned parent)) = maybe ofBlock block := by
  cases block <;> rfl

theorem meets_method (begun : Begun before state start) :
    (method start : Rule σ Method).Meets state fun method after =>
      Answer before after (ofMethod method) [.method method] := by
  refine (meets_word (by simp)).bind fun _ first _ wordRead => ?_
  refine meets_simpleName.bind fun name second _ nameRead => ?_
  refine meets_params.bind fun params third _ paramsRead => ?_
  refine meets_optionalType.bind fun result fourth _ resultRead => ?_
  refine (meets_whenNext fun _ => meets_block).bind fun body after _ either => ?_
  have bodyRead := Answer.ofSingles (Answer.ofEither either)
  have looseParams : ∀ param ∈ params, Loose param := fun param member =>
    paramsRead.loose (.param param) (List.mem_map_of_mem member)
  have looseResult : ∀ type ∈ result, Loose type := fun type member =>
    resultRead.loose (.typeRef type) (by simpa using member)
  have looseBody : ∀ block ∈ body, Loose block := fun block member =>
    bodyRead.loose (.block block) (by simpa using member)
  refine (yields_assemble (Method.build_eq begun.loose looseParams looseResult looseBody) ?_).meets
  have inside := wordRead.append (nameRead.append (paramsRead.append (resultRead.append bodyRead)))
  have whole := begun.close (.method ⟨start.info, start.annotations.map (owned start.info.id),
    start.modifiers, name, params.map (owned start.info.id), result.map (owned start.info.id),
    body.map (owned start.info.id)⟩) rfl inside (by simp) ?_
  · rw [ofMethod, ofAnnots_map_owned, ofParams_map_owned, ofOptionalType_map_owned,
      maybe_ofBlock_map_owned]
    simp only [mul_assoc] at whole ⊢
    exact whole
  · refine .of_eq ?_
    simp [Node.children, Node.ownedBy, Node.id, Node.info, Function.comp_def, Option.toList_map]

namespace Member

def node : Member → Node
  | .field it => .field it
  | .method it => .method it

def owned (parent : Nat) : Member → Member
  | .field it => .field (Beagle.owned parent it)
  | .method it => .method (Beagle.owned parent it)

theorem node_owned (member : Member) (parent : Nat) :
    (member.owned parent).node = member.node.ownedBy parent := by
  cases member <;> rfl

def addAll (body : Body) (members : List Member) : Body :=
  ⟨body.info, body.vars ++ members.filterMap var?, body.consts ++ members.filterMap const?,
    body.methods ++ members.filterMap method?⟩

theorem addAll_cons (body : Body) (member : Member) (members : List Member) :
    addAll (addAll body [member]) members = addAll body (member :: members) := by
  simp only [addAll, List.append_assoc, ← List.filterMap_append, List.singleton_append]

theorem addTo_eq {body : Body} {member : Member} (loose : member.node.info.parent = none) :
    member.addTo body = .ok (addAll body [member.owned body.info.id]) := by
  cases member with
  | field it =>
      rw [addTo, Body.addField_eq loose]
      cases kind : it.kind <;>
        simp [addAll, owned, var?, const?, method?, Beagle.owned, HasInfo.withInfo, kind]
  | method it =>
      rw [addTo, Body.addMethod_eq loose]
      simp [addAll, owned, var?, const?, method?]

theorem children_ofMembers (info : NodeInfo) (members : List Member) :
    (Node.body (.ofMembers info members)).children.Perm (members.map node) := by
  induction members with
  | nil => exact .refl _
  | cons member members ih =>
      refine .trans ?_ (ih.cons member.node)
      cases member with
      | field it =>
          cases kind : it.kind with
          | mutable => simp [Node.children, Body.ofMembers, var?, const?, method?, node, kind]
          | constant =>
              simp [Node.children, Body.ofMembers, var?, const?, method?, node, kind]
      | method it =>
          simp [Node.children, Body.ofMembers, var?, const?, method?, node, -List.append_assoc]

end Member

theorem buildBody_eq {info : NodeInfo} {members : List Member}
    (loose : ∀ member ∈ members, member.node.info.parent = none) :
    buildBody info members = .ok (.ofMembers info (members.map (Member.owned info.id))) := by
  have filed := foldlM_eq_put
    (fun body members => Member.addAll body (members.map (Member.owned body.info.id)))
    (fun body => by simp [Member.addAll])
    (fun body member members => Member.addAll_cons body (member.owned body.info.id) _)
    (fun body member found => Member.addTo_eq (loose member found)) (Body.make info)
  exact filed

theorem Begun.same_right {after : State σ} (begun : Begun before state start)
    (same : state.Same after) : Begun before after start := by
  obtain ⟨middle, opened, answer⟩ := begun
  exact ⟨middle, opened, answer.same_right same⟩

theorem meets_memberAfter (begun : Begun before state start) :
    (memberAfter start : Rule σ (Option Member)).Meets state
      (Either (before.errors < ·.errors) fun member after =>
        Answer before after (ofMember member) [member.node]) := by
  refine yields_current.meets.bind fun token here _ ⟨_, same⟩ => ?_
  have begun := begun.same_right same
  split
  · exact (meets_field _ begun).bind fun field after _ answer => meets_pure answer
  · exact (meets_field _ begun).bind fun field after _ answer => meets_pure answer
  · exact (meets_method begun).bind fun method after _ answer => meets_pure answer
  · refine (yields_reportExpected _).meets.bind fun _ after _ ⟨_, _, session⟩ => meets_pure ?_
    obtain ⟨middle, opened, answer⟩ := begun
    have earlier := (opened.leads.trans answer.leads).errors_le
    have more : after.errors = here.errors + 1 := by simp [State.errors, session]
    change before.errors < after.errors
    omega

theorem meets_memberStep : (memberStep : Rule σ (Option Member)).Meets state
    (Either (fun after => Answer state after Spelling.terminators [] ∧
        (after.errors = state.errors → after.head.kind = .mark .rightBrace))
      fun member after => Answer state after (Spelling.terminators * ofMember member) [member.node]) := by
  refine meets_terminators.bind fun _ start _ ⟨skipped, _⟩ => ?_
  refine (yields_check _).meets.bind fun closed here _ ⟨isBrace, same⟩ => ?_
  have skipped := skipped.same_right same
  cases closed with
  | true => exact meets_pure ⟨skipped, fun _ => same.head ▸ isBrace.mp rfl⟩
  | false =>
      refine meets_preamble.bind fun start begun early begins => ?_
      refine (meets_memberAfter begins).mono ?_
      rintro (_ | member) after late answer
      · have reported : state.errors < after.errors :=
          Nat.lt_of_le_of_lt skipped.leads.errors_le answer
        exact ⟨.lost (skipped.leads.trans (early.trans late)) reported,
          fun clean => absurd clean (Nat.ne_of_gt reported)⟩
      · exact skipped.append answer

theorem ofMembers_map_owned (members : List Member) (parent : Nat) :
    ofMembers (members.map (Member.owned parent)) = ofMembers members := by
  rw [ofMembers, List.map_map]
  refine congrArg List.prod (List.map_congr_left fun member _ => ?_)
  cases member <;> rfl

theorem meets_body : (body : Rule σ Body).Meets state fun body after =>
    Answer state after (ofBody body) [.body body] := by
  refine meets_node.bind fun info middle _ opened => ?_
  refine (meets_word (by simp)).bind fun _ inside _ openRead => ?_
  refine (meets_collect_answer (fun _ => meets_memberStep) inside).bind ?_
  rintro members ended _ ⟨last, membersRead, skipped, isBrace⟩
  refine (yields_discard 1).meets.bind fun _ after leads ⟨ahead, ending, session⟩ => ?_
  have closeRead : Answer last after (Spelling.terminators * mark .rightBrace) [] := by
    by_cases clean : ended.errors = last.errors
    · have brace : ended.head.kind = .mark .rightBrace := isBrace clean
      have took : ended.Took ended.head after := by
        refine ⟨?_, ending, session, leads.file⟩
        rw [ahead]
        exact State.ahead_eq_cons (by simp [brace])
      exact skipped.append (.took took (singleton_mem_word brace))
    · refine .lost (skipped.leads.trans leads) ?_
      have := skipped.leads.errors_le
      have := leads.errors_le
      omega
  have membersRead := Answer.ofSingles membersRead
  have loose : ∀ member ∈ members, member.node.info.parent = none := fun member found =>
    membersRead.loose member.node (List.mem_map_of_mem found)
  refine (yields_assemble (buildBody_eq loose) ?_).meets
  have inner := openRead.append (membersRead.append closeRead)
  have whole := Opened.close (.body (.ofMembers info (members.map (Member.owned info.id)))) opened
    inner (by simp) ?_
  · refine whole.weaken fun tokens spells => ⟨members.map (Member.owned info.id), rfl, ?_⟩
    rw [ofMembers_map_owned, mul_assoc, mul_assoc]
    exact spells
  · refine (Member.children_ofMembers _ _).trans (.of_eq ?_)
    rw [List.nil_append, List.append_nil, List.map_map, List.map_map]
    exact List.map_congr_left fun member _ => member.node_owned info.id

end Grammar

end Beagle
