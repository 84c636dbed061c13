import Beagle.Text.Basic

/-!
Pieces of a text.  Cutting a text at a mark gives the stretches that reach from one mark to the next, and
nothing else; put together again with the mark in between, they are the text.
-/

namespace Beagle.Text

theorem pieces_eq_splitOn (mark : Char) (chars : List Char) : pieces mark chars = chars.splitOn mark := by
  rw [List.splitOn_eq_splitOnP]
  induction chars with
  | nil => rfl
  | cons char chars ih =>
      rw [pieces, ih, List.splitOnP_cons_eq_if_modifyHead]
      simp only [beq_iff_eq]
      split
      · rfl
      · cases split : List.splitOnP (· == mark) chars with
        | nil => exact absurd split (List.splitOnP_ne_nil (· == mark) chars)
        | cons piece others => rfl

/-- A piece reaches from a mark, or from the start of the text, up to the next mark, or up to the end. -/
def IsPiece (mark : Char) (text piece : List Char) : Prop :=
  mark ∉ piece ∧ ∃ front back, text = front ++ piece ++ back ∧
    (∀ char ∈ front.getLast?, char = mark) ∧ ∀ char ∈ back.head?, char = mark

theorem pieces_append_mark (mark : Char) (front back : List Char) :
    pieces mark (front ++ mark :: back) = pieces mark front ++ pieces mark back := by
  simp only [pieces_eq_splitOn, List.splitOn_eq_splitOnP]
  exact List.splitOnP_append_cons front back (beq_self_eq_true mark)

theorem pieces_of_notMem {mark : Char} {piece : List Char} (whole : mark ∉ piece) :
    pieces mark piece = [piece] := by
  rw [pieces_eq_splitOn, List.splitOn_eq_splitOnP]
  refine List.splitOnP_eq_singleton fun char member => ?_
  rw [beq_eq_false_iff_ne]
  rintro rfl
  exact whole member

variable {mark : Char} {text piece front back : List Char}

theorem IsPiece.append_right (isPiece : IsPiece mark front piece) (back : List Char) :
    IsPiece mark (front ++ mark :: back) piece := by
  obtain ⟨whole, before, behind, rfl, starts, ends⟩ := isPiece
  refine ⟨whole, before, behind ++ mark :: back, by simp, starts, ?_⟩
  cases behind with
  | nil => simp
  | cons char behind => simpa using ends

theorem IsPiece.append_left (isPiece : IsPiece mark back piece) (front : List Char) :
    IsPiece mark (front ++ mark :: back) piece := by
  obtain ⟨whole, before, behind, rfl, starts, ends⟩ := isPiece
  refine ⟨whole, front ++ mark :: before, behind, by simp, ?_, ends⟩
  cases before with
  | nil => simp
  | cons char before => simpa [List.getLast?_append] using starts

theorem isPiece_of_mem_pieces (listed : piece ∈ pieces mark text) : IsPiece mark text piece := by
  induction length : text.length using Nat.strongRecOn generalizing text with
  | ind length ih =>
      subst length
      by_cases whole : mark ∈ text
      · obtain ⟨front, back, rfl⟩ := List.append_of_mem whole
        rw [pieces_append_mark] at listed
        rcases List.mem_append.mp listed with early | late
        · exact (ih front.length (by simp) early rfl).append_right back
        · exact (ih back.length (by simp; omega) late rfl).append_left front
      · rw [pieces_of_notMem whole] at listed
        obtain rfl := List.mem_singleton.mp listed
        exact ⟨whole, [], [], by simp, by simp, by simp⟩

theorem mem_pieces_of_isPiece (isPiece : IsPiece mark text piece) : piece ∈ pieces mark text := by
  obtain ⟨whole, front, back, rfl, starts, ends⟩ := isPiece
  have first : piece ∈ pieces mark (piece ++ back) := by
    cases back with
    | nil => simp [pieces_of_notMem whole]
    | cons char back =>
        obtain rfl : char = mark := ends char rfl
        simp [pieces_append_mark, pieces_of_notMem whole]
  rcases List.eq_nil_or_concat front with rfl | ⟨before, char, rfl⟩
  · simpa using first
  · obtain rfl : char = mark := starts char (by simp)
    rw [List.concat_eq_append, List.append_assoc, List.append_assoc, List.singleton_append,
      pieces_append_mark]
    exact List.mem_append_right _ first

theorem mem_pieces_iff : piece ∈ pieces mark text ↔ IsPiece mark text piece :=
  ⟨isPiece_of_mem_pieces, mem_pieces_of_isPiece⟩

theorem notMem_of_mem_pieces (listed : piece ∈ pieces mark text) : mark ∉ piece :=
  (isPiece_of_mem_pieces listed).1

theorem subset_of_mem_pieces (listed : piece ∈ pieces mark text) : piece ⊆ text := by
  obtain ⟨_, front, back, rfl, _⟩ := isPiece_of_mem_pieces listed
  exact fun char member => by simp [member]

end Beagle.Text
