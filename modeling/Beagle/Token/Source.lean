import Beagle.Token.Basic

/-!
Streams of tokens, pulled one token at a time, and sources, which are the streams that come to an end of
file.  Both may be asked again after an end of file; a stream may then go on with other tokens, and a
source comes to an end of file again.
-/

namespace Beagle

class TokenStream (σ : Type) where
  next : σ → Token × σ
  file : σ → String

/-- `remaining` bounds the number of tokens before the next end of file. -/
class TokenSource (σ : Type) extends TokenStream σ where
  remaining : σ → Nat
  remaining_next : ∀ source, (next source).1.kind ≠ .fileEnd →
    remaining (next source).2 < remaining source

namespace TokenSource

open TokenStream

variable {σ : Type} [TokenSource σ]

def ahead (source : σ) : List Token :=
  let pulled := next source
  if pulled.1.kind = .fileEnd then [] else pulled.1 :: ahead pulled.2
termination_by remaining source
decreasing_by exact remaining_next _ ‹_›

def ending (source : σ) : FileEnd :=
  let pulled := next source
  if pulled.1.kind = .fileEnd then pulled.1.fileEnd else ending pulled.2
termination_by remaining source
decreasing_by exact remaining_next _ ‹_›

theorem ahead_eq_nil {source : σ} (last : (next source).1.kind = .fileEnd) : ahead source = [] := by
  rw [ahead]
  simp [last]

theorem ahead_eq_cons {source : σ} (more : (next source).1.kind ≠ .fileEnd) :
    ahead source = (next source).1 :: ahead (next source).2 := by
  rw [ahead]
  simp [more]

theorem ending_eq_fileEnd {source : σ} (last : (next source).1.kind = .fileEnd) :
    ending source = (next source).1.fileEnd := by
  rw [ending]
  simp [last]

theorem ending_eq_ending {source : σ} (more : (next source).1.kind ≠ .fileEnd) :
    ending source = ending (next source).2 := by
  rw [ending]
  simp [more]

theorem kind_of_mem_ahead {source : σ} {token : Token} (member : token ∈ ahead source) :
    token.kind ≠ .fileEnd := by
  fun_induction ahead source with
  | case1 => simp at member
  | case2 source pulled more ih =>
      rcases List.mem_cons.mp member with first | later
      · exact first ▸ more
      · exact ih later

end TokenSource

structure Tape where
  file : String
  tokens : List Token
  last : FileEnd

namespace Tape

/-- The tokens up to the first end of file.  If there is none, the file ends where the last token
starts. -/
def ofTokens (file : String) (tokens : List Token) : Tape where
  file := file
  tokens := tokens.takeWhile fun token => token.kind ≠ .fileEnd
  last := match tokens.find? fun token => token.kind = .fileEnd with
    | some token => token.fileEnd
    | none => .ofPosition ((tokens.getLast?.map Token.position).getD .start)

def next (tape : Tape) : Token × Tape :=
  match tape.tokens with
  | [] => (tape.last.token, tape)
  | token :: rest => (token, { tape with tokens := rest })

theorem length_next (tape : Tape) (more : tape.next.1.kind ≠ .fileEnd) :
    tape.next.2.tokens.length < tape.tokens.length := by
  unfold next at *
  split <;> simp_all

instance : TokenSource Tape where
  next := next
  file := file
  remaining tape := tape.tokens.length
  remaining_next := length_next

end Tape

structure Metered (σ : Type) where
  source : σ
  pulls : Nat

namespace Metered

variable {σ : Type}

def next [TokenStream σ] (metered : Metered σ) : Token × Metered σ :=
  let (token, source) := TokenStream.next metered.source
  (token, ⟨source, metered.pulls + 1⟩)

instance [TokenStream σ] : TokenStream (Metered σ) where
  next := next
  file metered := TokenStream.file metered.source

instance [TokenSource σ] : TokenSource (Metered σ) where
  remaining metered := TokenSource.remaining metered.source
  remaining_next metered := TokenSource.remaining_next metered.source

end Metered

end Beagle
