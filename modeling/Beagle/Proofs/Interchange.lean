import Beagle.Proofs.Derivation
import Beagle.Proofs.FailFast.Parse
import Beagle.Proofs.LazyScanning
import Beagle.Proofs.Likeness.Grammar

/-!
Token sources are interchangeable.  A parse depends on the tokens ahead, the end of file behind them, the
name of the file and the session, and on nothing else: a text may be read while it is parsed or all of it
before, through a window of any size, and however often it is parsed.
-/

namespace Beagle

section Unmasked

def Mask.nothing : Mask :=
  ⟨fun id => id, fun position => position⟩

@[simp] theorem Token.masked_nothing : Token.masked .nothing = fun token => token := rfl

@[simp] theorem FileEnd.masked_nothing : FileEnd.masked .nothing = fun fileEnd => fileEnd := rfl

@[simp] theorem Diagnostic.masked_nothing : Diagnostic.masked .nothing = fun diagnostic => diagnostic := by
  funext ⟨severity, file, position, complaint⟩
  cases position <;> cases complaint <;> rfl

@[simp] theorem NodeInfo.masked_nothing : NodeInfo.masked .nothing = fun info => info := by
  funext info
  simp [NodeInfo.masked, Mask.nothing]

@[simp] theorem TypeRef.masked_nothing : TypeRef.masked .nothing = fun type => type := by
  funext type
  simp [TypeRef.masked]

@[simp] theorem Annot.masked_nothing : Annot.masked .nothing = fun annot => annot := by
  funext annot
  simp [Annot.masked]

@[simp] theorem Literal.masked_nothing : Literal.masked .nothing = fun literal => literal := by
  funext literal
  simp [Literal.masked]

@[simp] theorem Declarator.masked_nothing : Declarator.masked .nothing = fun declarator => declarator := by
  funext declarator
  simp only [Declarator.masked, Literal.masked_nothing, Option.map_id_fun', id_eq]
  rfl

@[simp] theorem Field.masked_nothing : Field.masked .nothing = fun field => field := by
  funext field
  simp [Field.masked]

@[simp] theorem Param.masked_nothing : Param.masked .nothing = fun param => param := by
  funext param
  simp [Param.masked]

@[simp] theorem Block.masked_nothing : Block.masked .nothing = fun block => block := by
  funext block
  simp [Block.masked]

@[simp] theorem Method.masked_nothing : Method.masked .nothing = fun method => method := by
  funext method
  simp [Method.masked]

@[simp] theorem Body.masked_nothing : Body.masked .nothing = fun body => body := by
  funext body
  simp [Body.masked]

@[simp] theorem TypeDecl.masked_nothing : TypeDecl.masked .nothing = fun decl => decl := by
  funext decl
  simp [TypeDecl.masked]

@[simp] theorem PackageClause.masked_nothing : PackageClause.masked .nothing = fun clause => clause := by
  funext clause
  simp [PackageClause.masked]

@[simp] theorem ImportClause.masked_nothing : ImportClause.masked .nothing = fun clause => clause := by
  funext clause
  simp [ImportClause.masked]

@[simp] theorem SourceUnit.masked_nothing : SourceUnit.masked .nothing = fun unit => unit := by
  funext unit
  simp [SourceUnit.masked]

theorem Stop.outcome_nothing (result : Except Stop SourceUnit) :
    Stop.outcome .nothing (SourceUnit.masked .nothing) result = result := by
  rcases result with (_ | fault) | unit
  · rfl
  · rfl
  · exact congrArg Except.ok (congrFun SourceUnit.masked_nothing unit)

end Unmasked

theorem Session.eq_of_continues {before after other : Session} (first : before.Continues after)
    (second : before.Continues other) (diagnostics : after.diagnostics = other.diagnostics)
    (nextId : after.nextId = other.nextId) : after = other := by
  obtain ⟨more, _, told, noticed⟩ := first.reported
  obtain ⟨others, _, toldOther, noticedOther⟩ := second.reported
  have same : more = others := List.append_cancel_left (told.symm.trans (diagnostics.trans toldOther))
  have file := first.file.trans second.file.symm
  have notices : after.notices = other.notices := by rw [noticed, noticedOther, same]
  cases after
  cases other
  simp_all

namespace State

variable {σ τ : Type} [TokenSource σ] [TokenSource τ]

def parses (state : State σ) : (count : Nat) → List (Except Stop SourceUnit) × State σ
  | 0 => ([], state)
  | count + 1 =>
    let (result, state) := state.parse
    let (results, state) := state.parses count
    (result :: results, state)

structure Twin (left : State σ) (right : State τ) : Prop where
  ahead : left.ahead = right.ahead
  ending : left.ending = right.ending
  file : left.file = right.file
  session : left.session = right.session

theorem file_parse (state : State σ) : state.parse.2.file = state.file :=
  ((Grammar.unit state.file).leads _).file

theorem ending_ofSource (source : σ) (capacity : Nat) (session : Session) :
    (ofSource source capacity session).ending = TokenSource.ending source :=
  Window.ending_ofSource source capacity

variable {left : State σ} {right : State τ}

theorem Twin.parse (twin : left.Twin right) :
    left.parse.1 = right.parse.1 ∧ left.parse.2.Twin right.parse.2 := by
  have begun : left.session.begin left.file = right.session.begin right.file := by
    rw [twin.session, twin.file]
  have alike : Comparison.Alike ⟨.nothing, [], []⟩
      { left with session := left.session.begin left.file }
      { right with session := right.session.begin right.file } :=
    ⟨congrArg _ twin.ahead, congrArg _ twin.ending, congrArg Session.file begun,
      fun count => congrArg (·.nextId + count) begun, _, _, rfl, rfl,
      congrArg (List.map _) (congrArg Session.diagnostics twin.session)⟩
  obtain ⟨same, after⟩ := Comparison.alike_parse left right twin.file alike
  obtain ⟨more, others, told, toldOther, sameTold⟩ := after.told
  rw [Stop.outcome_nothing, Stop.outcome_nothing] at same
  simp only [Diagnostic.masked_nothing, List.map_id_fun', id_eq, List.nil_append] at told toldOther sameTold
  refine ⟨same, by simpa using after.ahead, by simpa using after.ending, ?_, ?_⟩
  · rw [file_parse, file_parse, twin.file]
  · -- Notices are not compared, but those of one parse follow from its diagnostics.
    obtain ⟨middle, goesOn, isLeft⟩ := left.session_parse
    obtain ⟨other, goesOnToo, isRight⟩ := right.session_parse
    rw [← begun] at goesOnToo
    have nextId := after.nextId 0
    rw [isLeft] at told nextId
    rw [isRight] at toldOther nextId
    rw [isLeft, isRight, Session.eq_of_continues goesOn goesOnToo
      (told.trans (sameTold.trans toldOther.symm)) nextId]

theorem Twin.parses (twin : left.Twin right) (count : Nat) :
    (left.parses count).1 = (right.parses count).1 ∧
      (left.parses count).2.Twin (right.parses count).2 := by
  induction count generalizing left right with
  | zero => exact ⟨rfl, twin⟩
  | succ count ih =>
      obtain ⟨same, after⟩ := twin.parse
      obtain ⟨others, final⟩ := ih after
      exact ⟨congrArg₂ List.cons same others, final⟩

end State

namespace Tape

open TokenStream TokenSource

theorem ending_eq_last {tape : Tape} (unended : ∀ token ∈ tape.tokens, token.kind ≠ .fileEnd) :
    ending tape = tape.last := by
  obtain ⟨file, tokens, last⟩ := tape
  induction tokens with
  | nil => exact ending_eq_fileEnd rfl
  | cons token tokens ih =>
      rw [ending_eq_ending (unended token (by simp))]
      exact ih fun other member => unended other (by simp [member])

variable {σ : Type} [TokenSource σ]

theorem ofTokens_ahead (name : String) (source : σ) :
    ofTokens name (ahead source ++ [(ending source).token]) = ⟨name, ahead source, ending source⟩ := by
  have unended : ∀ token ∈ ahead source, token.kind ≠ .fileEnd := fun token => kind_of_mem_ahead
  have front : (ahead source ++ [(ending source).token]).takeWhile (fun token => token.kind ≠ .fileEnd) =
      ahead source := by
    rw [List.takeWhile_append_of_pos (by simpa using unended)]
    simp
  have last : (ahead source ++ [(ending source).token]).find? (fun token => token.kind = .fileEnd) =
      some (ending source).token := by
    rw [List.find?_append, List.find?_eq_none.mpr (by simpa using unended)]
    simp
  rw [ofTokens, front, last]
  rfl

theorem twin_ofTokens (source : σ) (session : Session) (first second : Nat) :
    (State.ofSource source first session).Twin (State.ofSource
      (ofTokens (TokenStream.file source) (ahead source ++ [(ending source).token])) second session) := by
  rw [ofTokens_ahead]
  have unended : ∀ token ∈ ahead source, token.kind ≠ .fileEnd := fun token => kind_of_mem_ahead
  refine ⟨?_, ?_, rfl, rfl⟩
  · rw [State.ahead_ofSource, State.ahead_ofSource, ahead_eq_tokens unended]
  · rw [State.ending_ofSource, State.ending_ofSource, ending_eq_last unended]

end Tape

/-- Reading a text while it is parsed, and parsing the tokens that were pulled from it up to the first end
of file, come to the same: from any session, through windows of any size, and for any number of parses in
a row, with the same units and the same session at the end. -/
theorem parses_interchangeable (source : SourceText) :
    ∃ stop, TokenStream.EndsAt source stop ∧ ∀ session first second count,
      let tape := Tape.ofTokens source.file ((List.range (stop + 1)).map (TokenStream.drawn source))
      let pulled := (State.ofSource source first session).parses count
      let listed := (State.ofSource tape second session).parses count
      pulled.1 = listed.1 ∧ pulled.2.session = listed.2.session := by
  refine ⟨(TokenSource.ahead source).length, TokenSource.endsAt_ahead source, ?_⟩
  intro session first second count tape pulled listed
  have twin := Tape.twin_ofTokens source session first second
  rw [← TokenSource.map_drawn_range] at twin
  obtain ⟨same, after⟩ := twin.parses count
  exact ⟨same, after.session⟩

end Beagle
