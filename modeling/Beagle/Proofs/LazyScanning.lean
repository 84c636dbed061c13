import Beagle.Proofs.Cursor
import Beagle.Proofs.Segmentation

/-!
Texts read one token at a time, or all at once.  Both ways go on from the same place, but only the one that
pulls single tokens closes the text.  They see the same tokens, and however calls of both are mixed, each
token is delivered once and in its turn.
-/

namespace Beagle

namespace TokenSource

open TokenStream

variable {σ : Type} [TokenSource σ]

theorem drawn_asked (source : σ) (count index : Nat) :
    drawn (asked source count) index = drawn source (count + index) := by
  induction count generalizing index with
  | zero => rw [asked, Nat.zero_add]
  | succ count ih => rw [asked, drawn_next, ih, Nat.add_right_comm, Nat.add_assoc]

theorem drawn_eq_ahead (source : σ) {index : Nat} (bound : index ≤ (ahead source).length) :
    drawn source index = (ahead source)[index]?.getD (ending source).token := by
  fun_induction ahead source generalizing index with
  | case1 source pulled =>
      rename_i last
      obtain rfl : index = 0 := by simpa using bound
      rw [ending_eq_fileEnd last, List.getElem?_nil, Option.getD_none, Token.fileEnd_token last]
      rfl
  | case2 source pulled more =>
      rename_i ih
      rw [ending_eq_ending more]
      cases index with
      | zero => rfl
      | succ index =>
          rw [← drawn_next, List.getElem?_cons_succ]
          exact ih (by simpa using bound)

theorem drawn_length (source : σ) : drawn source (ahead source).length = (ending source).token := by
  rw [drawn_eq_ahead source (Nat.le_refl _), List.getElem?_eq_none (Nat.le_refl _), Option.getD_none]

theorem endsAt_ahead (source : σ) : EndsAt source (ahead source).length := by
  constructor
  · rw [drawn_length]
    rfl
  · intro index bound
    rw [drawn_eq_ahead source (Nat.le_of_lt bound), List.getElem?_eq_getElem bound]
    exact kind_of_mem_ahead (List.getElem_mem bound)

theorem map_drawn_range (source : σ) :
    (List.range ((ahead source).length + 1)).map (drawn source) =
      ahead source ++ [(ending source).token] := by
  apply List.ext_getElem (by simp)
  intro index bound _
  have within : index ≤ (ahead source).length := by simpa [Nat.lt_succ_iff] using bound
  rw [List.getElem_map, List.getElem_range, drawn_eq_ahead source within, List.getElem_append]
  split
  · rename_i before
    rw [List.getElem?_eq_getElem before, Option.getD_some]
  · rename_i behind
    rw [List.getElem?_eq_none (Nat.le_of_not_lt behind), Option.getD_none, List.getElem_singleton]

end TokenSource

theorem Lexeme.Writes.kind_ne_invalid {rest lexeme : List Char} {kind : Kind} {text : String}
    (writes : Writes rest kind text lexeme) : kind ≠ .invalid := by
  cases writes with
  | word _ _ _ isKind =>
      rintro rfl
      rcases isKind with ⟨reserved, _⟩ | ⟨absurd, _⟩
      · simp [Kind.reserved] at reserved
      · simp at absurd
  | integer => simp
  | mark => simp
  | string => simp

namespace SourceText

open TokenStream TokenSource

variable {source after : SourceText} {token : Token} {error : LexError}

section Scanning

theorem closed_of_scan {result : Except LexError Token} (scanned : source.scan = (result, after)) :
    after.closed = source.closed := by
  rw [← show source.scan.2 = after from congrArg Prod.snd scanned]
  unfold scan
  split
  · rfl
  · simp only
    split <;> rfl

theorem rest_of_scan (scanned : source.scan = (.ok token, after)) (last : token.kind = .fileEnd) :
    after.rest = [] ∧ token = .symbol .fileEnd after.position := by
  unfold scan at scanned
  split at scanned
  · simp at scanned
  · rename_i gap _
    simp only at scanned
    split at scanned
    · rename_i none
      simp only [Prod.mk.injEq, Except.ok.injEq] at scanned
      obtain ⟨rfl, rfl⟩ := scanned
      refine ⟨?_, rfl⟩
      cases rest : (source.skip gap).rest with
      | nil => rfl
      | cons char rest => simp [rest, Lexeme.read?] at none
    · rename_i kind text length found
      obtain ⟨lexeme, left, _, _, writes⟩ := Lexeme.writes_of_read found
      simp only [Prod.mk.injEq, Except.ok.injEq] at scanned
      obtain ⟨rfl, rfl⟩ := scanned
      exact absurd last writes.kind_ne_fileEnd
    · simp at scanned

theorem scan_of_nil (empty : source.rest = []) :
    source.scan = (.ok (.symbol .fileEnd source.position), source) := by
  have unmoved : source.skip 0 = source := rfl
  have reached : Gap.reach source.rest = .closed 0 := by
    rw [empty]
    rfl
  have nothing : Lexeme.read? source.rest = none := by
    rw [empty]
    rfl
  simp only [scan, reached, unmoved, nothing]

theorem kind_ne_invalid_of_scan (scanned : source.scan = (.ok token, after)) :
    token.kind ≠ .invalid := by
  rcases scan_cases scanned with ⟨_, rfl⟩ | ⟨gap, lexeme, _, _, writes, _⟩
  · simp [Token.symbol]
  · exact writes.kind_ne_invalid

theorem tokens_of_fault (scanned : source.scan = (.error error, after)) :
    source.tokens = (.error error, after) := by
  rw [tokens]
  split <;> simp_all

theorem tokens_of_last (scanned : source.scan = (.ok token, after)) (last : token.kind = .fileEnd) :
    source.tokens = (.ok [token], after) := by
  rw [tokens]
  split <;> simp_all

theorem tokens_of_more (scanned : source.scan = (.ok token, after)) (more : token.kind ≠ .fileEnd) :
    source.tokens = (after.tokens.1.map (token :: ·), after.tokens.2) := by
  rw [tokens]
  split
  · simp_all
  · rename_i other middle scannedOther
    rw [scanned] at scannedOther
    cases scannedOther
    rw [dif_pos more]

theorem scan_of_tokens {tokens : List Token} (scanned : source.tokens.1 = .ok tokens) :
    ∃ token after, source.scan = (.ok token, after) ∧
      ((token.kind = .fileEnd ∧ tokens = [token]) ∨
        (token.kind ≠ .fileEnd ∧ ∃ others, after.tokens.1 = .ok others ∧ tokens = token :: others)) := by
  rcases scan : source.scan with ⟨fault | token, after⟩
  · rw [tokens_of_fault scan] at scanned
    cases scanned
  · refine ⟨token, after, rfl, ?_⟩
    by_cases last : token.kind = .fileEnd
    · rw [tokens_of_last scan last] at scanned
      exact .inl ⟨last, (Except.ok.inj scanned).symm⟩
    · rw [tokens_of_more scan last] at scanned
      cases rest : after.tokens.1 with
      | error fault => simp [rest, Except.map] at scanned
      | ok others => exact .inr ⟨last, others, rfl, by simpa [rest, Except.map] using scanned.symm⟩

theorem tokens_of_nil (empty : source.rest = []) :
    source.tokens = (.ok [.symbol .fileEnd source.position], source) :=
  tokens_of_last (scan_of_nil empty) rfl

theorem rest_of_tokens {tokens : List Token} (scanned : source.tokens.1 = .ok tokens) :
    source.tokens.2.rest = [] := by
  fun_induction SourceText.tokens source generalizing tokens with
  | case1 source error after scan => simp at scanned
  | case2 source token after scan more _ rest final recursion ih =>
      cases rest with
      | error error => simp [Except.map] at scanned
      | ok others =>
          rw [recursion] at ih
          exact ih rfl
  | case3 source token after scan last => exact (rest_of_scan scan (by simpa using last)).1

end Scanning

section Pulling

theorem next_of_closed (closed : source.closed = true) :
    source.next = (.symbol .fileEnd source.position, source) := by
  simp [next, closed]

theorem next_of_token (unclosed : source.closed = false) (scanned : source.scan = (.ok token, after)) :
    source.next = (token, { after with closed := token.kind = .fileEnd }) := by
  simp [next, unclosed, scanned]

theorem next_of_more (unclosed : source.closed = false) (scanned : source.scan = (.ok token, after))
    (more : token.kind ≠ .fileEnd) : source.next = (token, after) := by
  have still := (closed_of_scan scanned).trans unclosed
  rw [next_of_token unclosed scanned, decide_eq_false more, ← still]

theorem next_of_fault (unclosed : source.closed = false)
    (scanned : source.scan = (.error error, after)) :
    source.next = (⟨.invalid, error.message, error.position⟩, { after with closed := true }) := by
  simp [next, unclosed, scanned]

theorem next_fileEnd (last : source.next.1.kind = .fileEnd) :
    source.next.2.closed = true ∧ source.next.1 = .symbol .fileEnd source.next.2.position := by
  cases closed : source.closed with
  | true =>
      rw [next_of_closed closed]
      exact ⟨closed, rfl⟩
  | false =>
      rcases scanned : source.scan with ⟨_ | token, after⟩
      · rw [next_of_fault closed scanned] at last
        simp at last
      · rw [next_of_token closed scanned] at last ⊢
        exact ⟨decide_eq_true last, (rest_of_scan scanned last).2⟩

theorem drawn_of_closed (closed : source.closed = true) (index : Nat) :
    drawn source index = .symbol .fileEnd source.position := by
  have unmoved (count : Nat) : asked source count = source := by
    induction count with
    | zero => rfl
    | succ count ih =>
        rw [asked, ih]
        exact congrArg Prod.snd (next_of_closed closed)
  rw [drawn, unmoved]
  exact congrArg Prod.fst (next_of_closed closed)

theorem drawn_of_fileEnd (last : source.next.1.kind = .fileEnd) (index : Nat) :
    drawn source index = source.next.1 := by
  cases index with
  | zero => rfl
  | succ index =>
      obtain ⟨closed, placed⟩ := next_fileEnd last
      rw [← drawn_next]
      exact (drawn_of_closed closed index).trans placed.symm

theorem drawn_eq (source : SourceText) (index : Nat) :
    drawn source index = (ahead source)[index]?.getD (ending source).token := by
  by_cases bound : index ≤ (ahead source).length
  · exact drawn_eq_ahead source bound
  · obtain ⟨count, rfl⟩ := Nat.exists_eq_add_of_le (Nat.le_of_not_le bound)
    rw [← drawn_asked, drawn_of_fileEnd (endsAt_ahead source).last,
      List.getElem?_eq_none (Nat.le_add_right _ _), Option.getD_none]
    exact drawn_length source

theorem ending_eq_symbol (source : SourceText) :
    ∃ place, (ending source).token = .symbol .fileEnd place := by
  obtain ⟨_, placed⟩ := next_fileEnd (endsAt_ahead source).last
  exact ⟨_, (drawn_length source).symm.trans placed⟩

theorem ahead_of_closed (closed : source.closed = true) : ahead source = [] :=
  ahead_eq_nil (congrArg (·.1.kind) (next_of_closed closed))

theorem tokens_eq_ahead {tokens : List Token} (unclosed : source.closed = false)
    (scanned : source.tokens.1 = .ok tokens) : tokens = ahead source ++ [(ending source).token] := by
  fun_induction SourceText.tokens source generalizing tokens with
  | case1 source error after scan => simp at scanned
  | case2 source token after scan more _ rest final recursion ih =>
      cases rest with
      | error error => simp [Except.map] at scanned
      | ok others =>
          obtain rfl : token :: others = tokens := by simpa [Except.map] using scanned
          have pulled : TokenStream.next source = (token, after) := next_of_more unclosed scan more
          have still := (closed_of_scan scan).trans unclosed
          rw [ahead_eq_cons (by rwa [pulled]), ending_eq_ending (by rwa [pulled]), pulled,
            List.cons_append, ← ih still (by rw [recursion])]
  | case3 source token after scan last =>
      obtain rfl : [token] = tokens := by simpa using scanned
      have isLast : token.kind = .fileEnd := by simpa using last
      have pulled := congrArg Prod.fst (next_of_token unclosed scan)
      have ended : (TokenStream.next source).1.kind = .fileEnd :=
        (congrArg Token.kind pulled).trans isLast
      rw [ahead_eq_nil ended, ending_eq_fileEnd ended, Token.fileEnd_token ended]
      exact congrArg (fun token => [token]) pulled.symm

theorem ahead_of_fault (unclosed : source.closed = false) (failed : source.tokens.1 = .error error) :
    ∃ front, ahead source = front ++ [⟨.invalid, error.message, error.position⟩] ∧
      ∀ token ∈ front, token.kind ≠ .invalid := by
  fun_induction SourceText.tokens source with
  | case1 source fault after scan =>
      obtain rfl : fault = error := by simpa using failed
      have pulled : TokenStream.next source = _ := next_of_fault unclosed scan
      refine ⟨[], ?_, by simp⟩
      rw [ahead_eq_cons (by rw [pulled]; simp), pulled, ahead_of_closed rfl]
      rfl
  | case2 source token after scan more _ rest final recursion ih =>
      cases rest with
      | ok others => simp [Except.map] at failed
      | error fault =>
          have pulled : TokenStream.next source = (token, after) := next_of_more unclosed scan more
          have still := (closed_of_scan scan).trans unclosed
          rw [recursion] at ih
          obtain ⟨front, same, valid⟩ := ih still (by simpa [Except.map] using failed)
          refine ⟨token :: front, ?_, ?_⟩
          · rw [ahead_eq_cons (by rwa [pulled]), pulled, same, List.cons_append]
          · intro other member
            rcases List.mem_cons.mp member with rfl | later
            · exact kind_ne_invalid_of_scan scan
            · exact valid other later
  | case3 source token after scan last => simp at failed

end Pulling

inductive Call
  | pull
  | drain

def answer (source : SourceText) : Call → Except LexError (List Token) × SourceText
  | .pull => (.ok [source.next.1], source.next.2)
  | .drain => source.tokens

def answers (source : SourceText) : List Call → List (Except LexError (List Token)) × SourceText
  | [] => ([], source)
  | call :: calls =>
    let answered := source.answer call
    let rest := answered.2.answers calls
    (answered.1 :: rest.1, rest.2)

def withoutEnds (tokens : List Token) : List Token :=
  tokens.filter fun token => token.kind ≠ .fileEnd

structure Awaits (source : SourceText) (rest : List Token) : Prop where
  tokens : ∃ last : FileEnd, source.tokens.1 = .ok (rest ++ [last.token])
  more : ∀ token ∈ rest, token.kind ≠ .fileEnd
  closed : source.closed = true → rest = []

section Delivery

theorem withoutEnds_append_fileEnd {tokens : List Token} (more : ∀ token ∈ tokens, token.kind ≠ .fileEnd)
    (last : FileEnd) : withoutEnds (tokens ++ [last.token]) = tokens := by
  rw [withoutEnds, List.filter_append, List.filter_eq_self.mpr (by simpa using more)]
  simp

theorem awaits_of_nil (empty : source.rest = []) : source.Awaits [] :=
  ⟨⟨.ofPosition source.position, congrArg Prod.fst (tokens_of_nil empty)⟩, by simp, fun _ => rfl⟩

variable {rest : List Token}

/-- One call delivers the first of the tokens that are awaited, and leaves the others.  If it delivers
an end of file, there are no others. -/
def Delivers (rest batch left : List Token) : Prop :=
  rest = withoutEnds batch ++ left ∧ ((∃ token ∈ batch, token.kind = .fileEnd) → left = [])

theorem Awaits.pull (awaits : source.Awaits rest) :
    ∃ left, Delivers rest [source.next.1] left ∧ source.next.2.Awaits left := by
  obtain ⟨⟨last, all⟩, more, ended⟩ := awaits
  cases closed : source.closed with
  | true =>
      obtain rfl := ended closed
      rw [next_of_closed closed]
      exact ⟨[], ⟨rfl, fun _ => rfl⟩, ⟨last, all⟩, more, ended⟩
  | false =>
      obtain ⟨token, after, scanned, ⟨isLast, same⟩ | ⟨isMore, others, later, same⟩⟩ := scan_of_tokens all
      · obtain rfl : rest = [] := by
          cases rest with
          | nil => rfl
          | cons first others => simp at same
        rw [next_of_token closed scanned]
        exact ⟨[], ⟨by simp [withoutEnds, isLast], fun _ => rfl⟩,
          awaits_of_nil (rest_of_scan scanned isLast).1⟩
      · rw [next_of_more closed scanned isMore]
        cases rest with
        | nil =>
            obtain ⟨rfl, _⟩ := List.cons.inj same
            exact absurd rfl isMore
        | cons first left =>
            obtain ⟨rfl, rfl⟩ := List.cons.inj same
            have still := (closed_of_scan scanned).trans closed
            refine ⟨left, ⟨by simp [withoutEnds, isMore], by simp [isMore]⟩, ⟨last, later⟩, ?_, ?_⟩
            · exact fun other member => more other (List.mem_cons_of_mem _ member)
            · simp [still]

theorem Awaits.drain (awaits : source.Awaits rest) :
    ∃ batch, source.tokens.1 = .ok batch ∧ Delivers rest batch [] ∧ source.tokens.2.Awaits [] := by
  obtain ⟨⟨last, all⟩, more, _⟩ := awaits
  refine ⟨_, all, ⟨?_, fun _ => rfl⟩, awaits_of_nil (rest_of_tokens all)⟩
  rw [withoutEnds_append_fileEnd more, List.append_nil]

theorem Awaits.answer (awaits : source.Awaits rest) (call : Call) :
    ∃ batch left, (source.answer call).1 = .ok batch ∧ Delivers rest batch left ∧
      (source.answer call).2.Awaits left := by
  cases call with
  | pull =>
      obtain ⟨left, delivers, later⟩ := awaits.pull
      exact ⟨_, left, rfl, delivers, later⟩
  | drain =>
      obtain ⟨batch, all, delivers, later⟩ := awaits.drain
      exact ⟨batch, [], all, delivers, later⟩

theorem Delivers.append {first second third batch batches : List Token}
    (early : Delivers first batch second) (late : Delivers second batches third) :
    Delivers first (batch ++ batches) third := by
  constructor
  · rw [early.1, late.1, withoutEnds, withoutEnds, withoutEnds, List.filter_append, List.append_assoc]
  · rintro ⟨token, member, last⟩
    rcases List.mem_append.mp member with old | new
    · have none := late.1.symm.trans (early.2 ⟨token, old, last⟩)
      exact (List.append_eq_nil_iff.mp none).2
    · exact late.2 ⟨token, new, last⟩

theorem Awaits.answers (awaits : source.Awaits rest) (calls : List Call) :
    ∃ (batches : List (List Token)) (left : List Token), (source.answers calls).1 = batches.map .ok ∧
      Delivers rest batches.flatten left := by
  induction calls generalizing source rest with
  | nil => exact ⟨[], rest, rfl, rfl, by simp⟩
  | cons call calls ih =>
      obtain ⟨batch, middle, answered, early, later⟩ := awaits.answer call
      obtain ⟨batches, left, others, late⟩ := ih later
      refine ⟨batch :: batches, left, ?_, early.append late⟩
      rw [SourceText.answers, answered, others, List.map_cons]

end Delivery

end SourceText

open TokenStream TokenSource

/-- Texts are read the same way lazily and eagerly.  The tokens of a text without faults are pulled one by
one, the end of file again and again; and pulls and whole readings in any order deliver each token once
and in its turn, all of them as soon as an end of file is delivered.  In a text with a fault, that is
pulled as an invalid token behind valid ones, and then nothing but the end of file. -/
theorem next_agrees_with_tokens (file text : String) :
    let source := SourceText.ofString file text
    (∀ tokens, source.tokens.1 = .ok tokens →
      (List.range tokens.length).map (drawn source) = tokens ∧
      (∀ index, tokens.length ≤ index →
        (drawn source index).kind = .fileEnd ∧ tokens.getLast? = some (drawn source index)) ∧
      ∀ calls, ∃ batches : List (List Token), (source.answers calls).1 = batches.map .ok ∧
        let delivered := batches.flatten.filter fun token => token.kind ≠ .fileEnd
        delivered <+: tokens.dropLast ∧
        ((∃ token ∈ batches.flatten, token.kind = .fileEnd) → delivered = tokens.dropLast)) ∧
    ∀ error, source.tokens.1 = .error error → ∃ count place,
      (∀ index < count, (drawn source index).kind ≠ .fileEnd ∧ (drawn source index).kind ≠ .invalid) ∧
      drawn source count = ⟨.invalid, error.message, error.position⟩ ∧
      ∀ index, count < index → drawn source index = .symbol .fileEnd place := by
  intro source
  refine ⟨fun tokens scanned => ?_, fun error failed => ?_⟩
  · obtain rfl := SourceText.tokens_eq_ahead rfl scanned
    rw [List.length_append, List.length_singleton, List.dropLast_concat, List.getLast?_concat]
    refine ⟨map_drawn_range source, fun index behind => ?_, fun calls => ?_⟩
    · rw [SourceText.drawn_eq, List.getElem?_eq_none (Nat.le_of_succ_le behind), Option.getD_none]
      exact ⟨rfl, rfl⟩
    · have awaits : source.Awaits (ahead source) :=
        ⟨⟨ending source, scanned⟩, fun _ member => kind_of_mem_ahead member,
          by simp [source, SourceText.ofString]⟩
      obtain ⟨batches, left, answered, all, ended⟩ := awaits.answers calls
      refine ⟨batches, answered, ⟨left, all.symm⟩, fun last => ?_⟩
      rw [all, ended last, List.append_nil]
      rfl
  · obtain ⟨front, all, valid⟩ := SourceText.ahead_of_fault rfl failed
    obtain ⟨place, placed⟩ := source.ending_eq_symbol
    refine ⟨front.length, place, fun index before => ?_, ?_, fun index behind => ?_⟩
    · have more := (endsAt_ahead source).more index (by rw [all]; simp; omega)
      refine ⟨more, ?_⟩
      rw [SourceText.drawn_eq, all, List.getElem?_append_left before, List.getElem?_eq_getElem before]
      exact valid _ (List.getElem_mem before)
    · rw [SourceText.drawn_eq, all, List.getElem?_concat_length]
      rfl
    · rw [SourceText.drawn_eq, all, List.getElem?_eq_none (by simp; omega), Option.getD_none]
      exact placed

/-- A text of two words around a comment, and one that ends in the middle of a string. -/
theorem next_agrees_with_tokens_example :
    (let source := SourceText.ofString "a.bgl" "a/**/b"
      let words : List Token := [⟨.identifier, "a", ⟨1, 1⟩⟩, ⟨.identifier, "b", ⟨1, 6⟩⟩]
      (List.range 3).map (drawn source) = words ++ [⟨.fileEnd, "end of file", ⟨1, 7⟩⟩] ∧
      ∀ calls, ∃ batches : List (List Token), (source.answers calls).1 = batches.map .ok ∧
        batches.flatten.filter (fun token => token.kind ≠ .fileEnd) <+: words) ∧
    let source := SourceText.ofString "a.bgl" "a \"b"
    ∃ count place, drawn source count = ⟨.invalid, "Unterminated string literal", ⟨1, 3⟩⟩ ∧
      ∀ index, count < index → drawn source index = .symbol .fileEnd place := by
  constructor
  · intro source words
    have scanned : source.tokens.1 = .ok (words ++ [⟨.fileEnd, "end of file", ⟨1, 7⟩⟩]) := by
      decide +kernel
    obtain ⟨pulled, _, delivered⟩ := (next_agrees_with_tokens "a.bgl" "a/**/b").1 _ scanned
    refine ⟨pulled, fun calls => ?_⟩
    obtain ⟨batches, answered, inOrder, _⟩ := delivered calls
    exact ⟨batches, answered, inOrder⟩
  · intro source
    have failed : source.tokens.1 = .error ⟨.unclosedString, ⟨1, 3⟩⟩ := by decide +kernel
    obtain ⟨count, place, _, fault, ended⟩ := (next_agrees_with_tokens "a.bgl" "a \"b").2 _ failed
    exact ⟨count, place, fault, ended⟩

end Beagle
