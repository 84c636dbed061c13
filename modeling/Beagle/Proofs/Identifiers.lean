import Beagle.Tree.Basic
import Beagle.Proofs.Segmentation

/-!
Words, and names that are made of them.  The identifiers that a text is scanned into are words.
-/

namespace Beagle

def Lexeme.IsWord (text : String) : Prop :=
  ∃ first others, text.toList = first :: others ∧ startsWord first ∧ ∀ char ∈ others, continuesWord char

def DottedName.Proper (name : DottedName) : Prop :=
  ∀ segment ∈ name.segments, Lexeme.IsWord segment

namespace Lexeme

theorem IsWord.continues {text : String} (isWord : IsWord text) :
    ∀ char ∈ text.toList, continuesWord char := by
  obtain ⟨first, others, same, starts, goesOn⟩ := isWord
  rw [same]
  intro char member
  rcases List.mem_cons.mp member with rfl | later
  · exact startsWord_continuesWord starts
  · exact goesOn char later

theorem isWord_iff {text : String} :
    IsWord text ↔ text.toList.head?.any startsWord ∧ text.toList.tail.all continuesWord := by
  rw [IsWord]
  cases text.toList with
  | nil => simp
  | cons first others => simp [and_assoc]

instance : DecidablePred IsWord :=
  fun _ => decidable_of_iff _ isWord_iff.symm

theorem Writes.isWord {rest lexeme : List Char} {text : String}
    (writes : Writes rest .identifier text lexeme) : IsWord text := by
  cases writes with
  | @word _ first others starts goesOn _ _ => exact ⟨first, others, by simp, starts, goesOn⟩

end Lexeme

instance (name : DottedName) : Decidable name.Proper :=
  inferInstanceAs (Decidable (∀ segment ∈ name.segments, Lexeme.IsWord segment))

namespace SourceText

theorem isWord_of_next {source : SourceText} (found : source.next.1.kind = .identifier) :
    Lexeme.IsWord source.next.1.text := by
  unfold next at *
  by_cases closed : source.closed
  · simp [closed, Token.symbol] at found
  · simp only [closed, Bool.false_eq_true, if_false] at *
    split at found
    · rename_i token after scanned
      rcases scan_cases scanned with ⟨_, rfl⟩ | ⟨gap, lexeme, _, _, writes, _⟩
      · simp [Token.symbol] at found
      · have isIdentifier : token.kind = .identifier := found
        rw [isIdentifier] at writes
        exact writes.isWord
    · simp at found

theorem isWord_of_mem_ahead {source : SourceText} {token : Token}
    (member : token ∈ TokenSource.ahead source) (found : token.kind = .identifier) :
    Lexeme.IsWord token.text := by
  fun_induction TokenSource.ahead source with
  | case1 => simp at member
  | case2 source pulled more ih =>
      rcases List.mem_cons.mp member with rfl | later
      · exact isWord_of_next found
      · exact ih later

end SourceText

namespace Spelling

def Worded (tokens : List Token) : Prop :=
  ∀ token ∈ tokens, token.kind = .identifier → Lexeme.IsWord token.text

theorem Worded.subset {tokens part : List Token} (worded : Worded tokens) (inside : part ⊆ tokens) :
    Worded part :=
  fun token member => worded token (inside member)

end Spelling

theorem DottedName.Proper.resolve {name : DottedName} {package : Option DottedName}
    (proper : name.Proper) (packageProper : ∀ above ∈ package, above.Proper) :
    (name.resolve package).Proper := by
  cases package with
  | none => exact proper
  | some above =>
      simp only [DottedName.resolve]
      split
      · exact proper
      · intro segment member
        rcases List.mem_append.mp member with inPackage | inName
        · exact packageProper above rfl segment inPackage
        · exact proper segment inName

end Beagle
