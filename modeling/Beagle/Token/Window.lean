import Beagle.Token.Source

/-!
Windows over a token stream.  A window holds the tokens that were pulled and not yet discarded, and
pulls more only when it is asked to look further.  Nothing is pulled after the end of file, and the
end of file is never discarded.  To a reader a window is the list of the tokens ahead of it and the
end of file behind them, whichever of them were pulled.
-/

namespace Beagle

/-- `held` are the tokens before the end of file; `last` is the end of file, once it was pulled. -/
structure Window (σ : Type) where
  source : σ
  held : Array Token
  last : Option FileEnd
  unended : ∀ token ∈ held, token.kind ≠ .fileEnd

namespace Window

variable {σ : Type}

def ofSource (source : σ) (capacity : Nat) : Window σ :=
  ⟨source, Array.emptyWithCapacity (max capacity 1), none, by simp⟩

def size (window : Window σ) : Nat :=
  window.held.size + if window.last.isSome then 1 else 0

theorem unended_push {held : Array Token} {token : Token}
    (unended : ∀ token ∈ held, token.kind ≠ .fileEnd) (more : token.kind ≠ .fileEnd) :
    ∀ other ∈ held.push token, other.kind ≠ .fileEnd := by
  intro other member
  rcases Array.mem_push.mp member with old | new
  · exact unended other old
  · exact new ▸ more

section Streams

variable [TokenStream σ]

def peek (window : Window σ) (offset : Nat) : Token × Window σ :=
  match _outside : window.held[offset]?, window.last with
  | some token, _ => (token, window)
  | none, some last => (last.token, window)
  | none, none =>
    let pulled := TokenStream.next window.source
    if more : pulled.1.kind = .fileEnd then
      (pulled.1, { window with source := pulled.2, last := some pulled.1.fileEnd })
    else
      peek { window with
        source := pulled.2
        held := window.held.push pulled.1
        unended := unended_push window.unended more } offset
termination_by offset + 1 - window.held.size
decreasing_by
  have outside : window.held.size ≤ offset := Array.getElem?_eq_none_iff.mp ‹_›
  simp only [Array.size_push]
  omega

theorem unended_extract {held : Array Token} (unended : ∀ token ∈ held, token.kind ≠ .fileEnd) :
    ∀ token ∈ held.extract 1, token.kind ≠ .fileEnd := by
  intro token member
  obtain ⟨index, bound, found⟩ := Array.mem_extract_iff_getElem.mp member
  exact unended token (found ▸ Array.getElem_mem _)

def dropFirst (window : Window σ) : Window σ :=
  { window with held := window.held.extract 1, unended := unended_extract window.unended }

/-- Drops `count` tokens, or all before the end of file if there are fewer. -/
def discard (window : Window σ) : (count : Nat) → Window σ
  | 0 => window
  | count + 1 =>
    let window := (window.peek 0).2
    if window.held.isEmpty then window else window.dropFirst.discard count

def matchesFrom (window : Window σ) (offset : Nat) : (kinds : List Kind) → Bool × Window σ
  | [] => (true, window)
  | kind :: kinds =>
    let (token, window) := window.peek offset
    if token.kind = kind then window.matchesFrom (offset + 1) kinds else (false, window)

def startsWith (window : Window σ) (kinds : List Kind) : Bool × Window σ :=
  window.matchesFrom 0 kinds

end Streams

variable [TokenSource σ]

def ahead (window : Window σ) : List Token :=
  window.held.toList ++ if window.last.isSome then [] else TokenSource.ahead window.source

def ending (window : Window σ) : FileEnd :=
  window.last.getD (TokenSource.ending window.source)

def left (window : Window σ) : Nat :=
  window.ahead.length

@[simp] theorem ahead_ofSource (source : σ) (capacity : Nat) :
    (ofSource source capacity).ahead = TokenSource.ahead source := by
  simp [ofSource, ahead]

@[simp] theorem ending_ofSource (source : σ) (capacity : Nat) :
    (ofSource source capacity).ending = TokenSource.ending source := rfl

theorem kind_of_mem_ahead {window : Window σ} {token : Token} (member : token ∈ window.ahead) :
    token.kind ≠ .fileEnd := by
  rcases List.mem_append.mp member with held | later
  · exact window.unended token (Array.mem_toList_iff.mp held)
  · split at later
    · simp at later
    · exact TokenSource.kind_of_mem_ahead later

@[simp] theorem ahead_peek (window : Window σ) (offset : Nat) :
    (window.peek offset).2.ahead = window.ahead := by
  fun_induction peek window offset with
  | case1 | case2 => rfl
  | case3 window _ unended pulled ended =>
      simp [ahead, unended, TokenSource.ahead_eq_nil ended]
  | case4 window _ unended pulled more ih =>
      rw [ih]
      simp [ahead, unended, TokenSource.ahead_eq_cons more, pulled]

@[simp] theorem ending_peek (window : Window σ) (offset : Nat) :
    (window.peek offset).2.ending = window.ending := by
  fun_induction peek window offset with
  | case1 | case2 => rfl
  | case3 window _ unended pulled ended =>
      simp [ending, unended, TokenSource.ending_eq_fileEnd ended, pulled]
  | case4 window _ unended pulled more ih =>
      rw [ih]
      simp [ending, unended, TokenSource.ending_eq_ending more, pulled]

theorem peek_fst (window : Window σ) (offset : Nat) :
    (window.peek offset).1 = window.ahead[offset]?.getD window.ending.token := by
  fun_induction peek window offset with
  | case1 window token found =>
      have bound : offset < window.held.toList.length := by
        simpa using (Array.getElem?_eq_some_iff.mp found).1
      simp [ahead, List.getElem?_append_left bound, found]
  | case2 window last outside ended =>
      have bound : window.held.size ≤ offset := by simpa using outside
      simp [ahead, ending, ended, bound]
  | case3 window outside unended pulled ended =>
      have bound : window.held.size ≤ offset := by simpa using outside
      simp [ahead, ending, unended, TokenSource.ahead_eq_nil ended,
        TokenSource.ending_eq_fileEnd ended, Token.fileEnd_token ended, bound, pulled]
  | case4 window _ unended pulled more ih =>
      rw [ih]
      simp [ahead, ending, unended, TokenSource.ahead_eq_cons more,
        TokenSource.ending_eq_ending more, pulled]

theorem ahead_eq_nil_of_peek {window : Window σ} (empty : (window.peek 0).2.held = #[]) :
    window.ahead = [] := by
  fun_induction peek window 0 with
  | case1 window token found => simp_all
  | case2 window last ended => simp_all [ahead]
  | case3 window _ unended pulled ended =>
      simpa [ahead, unended, TokenSource.ahead_eq_nil ended] using empty
  | case4 window _ unended pulled more ih =>
      have rest := ih empty
      simp [ahead] at rest

theorem ahead_dropFirst {window : Window σ} (held : window.held ≠ #[]) :
    window.dropFirst.ahead = window.ahead.drop 1 := by
  have some : 1 ≤ window.held.toList.length := Array.size_pos_iff.mpr held
  have rest : (window.held.extract 1).toList = window.held.toList.drop 1 := by
    rw [Array.toList_extract, List.extract_eq_take_drop]
    exact List.take_of_length_le (by simp)
  rw [ahead, ahead, List.drop_append_of_le_length some, ← rest]
  rfl

@[simp] theorem ending_dropFirst (window : Window σ) :
    window.dropFirst.ending = window.ending := rfl

@[simp] theorem ahead_discard (window : Window σ) (count : Nat) :
    (window.discard count).ahead = window.ahead.drop count := by
  induction count generalizing window with
  | zero => rfl
  | succ count ih =>
      simp only [discard, Array.isEmpty_iff]
      split
      · rename_i empty
        simp [ahead_eq_nil_of_peek empty]
      · rename_i held
        rw [ih, ahead_dropFirst held, ahead_peek, List.drop_drop, Nat.add_comm]

@[simp] theorem ending_discard (window : Window σ) (count : Nat) :
    (window.discard count).ending = window.ending := by
  induction count generalizing window with
  | zero => rfl
  | succ count ih =>
      simp only [discard]
      split
      · exact ending_peek window 0
      · rw [ih, ending_dropFirst, ending_peek]

@[simp] theorem ahead_matchesFrom (window : Window σ) (offset : Nat) (kinds : List Kind) :
    (window.matchesFrom offset kinds).2.ahead = window.ahead := by
  induction kinds generalizing window offset with
  | nil => rfl
  | cons kind kinds ih =>
      simp only [matchesFrom]
      split <;> simp [ih]

@[simp] theorem ending_matchesFrom (window : Window σ) (offset : Nat) (kinds : List Kind) :
    (window.matchesFrom offset kinds).2.ending = window.ending := by
  induction kinds generalizing window offset with
  | nil => rfl
  | cons kind kinds ih =>
      simp only [matchesFrom]
      split <;> simp [ih]

theorem matchesFrom_iff (window : Window σ) (offset : Nat) (kinds : List Kind) :
    (window.matchesFrom offset kinds).1 = true ↔ ∀ index kind, kinds[index]? = some kind →
      (window.ahead[offset + index]?.getD window.ending.token).kind = kind := by
  induction kinds generalizing window offset with
  | nil => simp [matchesFrom]
  | cons first kinds ih =>
      simp only [matchesFrom, peek_fst]
      split
      · rename_i same
        rw [ih, ahead_peek, ending_peek]
        constructor
        · intro rest index kind found
          cases index with
          | zero => simpa [same] using found
          | succ index =>
              rw [← Nat.add_assoc, Nat.add_right_comm]
              exact rest index kind (by simpa using found)
        · intro all index kind found
          rw [Nat.add_right_comm, Nat.add_assoc]
          exact all (index + 1) kind (by simpa using found)
      · rename_i other
        simp only [Bool.false_eq_true, false_iff]
        intro all
        exact other (all 0 first rfl)

end Window

end Beagle
