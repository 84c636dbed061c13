import Beagle.Token.Window

/-!
Windows as cursors.  A stream is the sequence of tokens that it gives when it is asked again and again,
and a window over it is a place in that sequence together with the number of tokens that were asked for.
Whatever is requested of a window, in whatever order, it answers like the cursor, asks for no more
tokens than the cursor says, and never asks again after the first end of file, whatever would come then.
-/

namespace Beagle

namespace TokenStream

variable {σ : Type} [TokenStream σ]

def asked (source : σ) : (count : Nat) → σ
  | 0 => source
  | count + 1 => (next (asked source count)).2

def drawn (source : σ) (index : Nat) : Token :=
  (next (asked source index)).1

theorem asked_next (source : σ) (count : Nat) : asked (next source).2 count = asked source (count + 1) := by
  induction count with
  | zero => rfl
  | succ count ih =>
      rw [asked, ih]
      rfl

theorem drawn_next (source : σ) (index : Nat) : drawn (next source).2 index = drawn source (index + 1) := by
  rw [drawn, asked_next]
  rfl

structure EndsAt (source : σ) (stop : Nat) : Prop where
  last : (drawn source stop).kind = .fileEnd
  more : ∀ index < stop, (drawn source index).kind ≠ .fileEnd

theorem EndsAt.eq_of_kind {source : σ} {stop index : Nat} (ends : EndsAt source stop)
    (bound : index ≤ stop) (last : (drawn source index).kind = .fileEnd) : index = stop := by
  rcases Nat.lt_or_eq_of_le bound with before | same
  · exact absurd last (ends.more index before)
  · exact same

end TokenStream

inductive Request
  | peek (offset : Nat)
  | peekKind (offset : Nat)
  | discard (count : Nat)
  | lookahead (kinds : List Kind)

inductive Reply
  | token (token : Token)
  | kind (kind : Kind)
  | found (isFound : Bool)
  | done

namespace Window

variable {σ : Type} [TokenStream σ]

def serve (window : Window σ) : Request → Reply × Window σ
  | .peek offset => (.token (window.peek offset).1, (window.peek offset).2)
  | .peekKind offset => (.kind (window.peek offset).1.kind, (window.peek offset).2)
  | .discard count => (.done, window.discard count)
  | .lookahead kinds => (.found (window.startsWith kinds).1, (window.startsWith kinds).2)

def serveAll (window : Window σ) : List Request → List Reply × Window σ
  | [] => ([], window)
  | request :: requests =>
    let served := window.serve request
    let rest := served.2.serveAll requests
    (served.1 :: rest.1, rest.2)

end Window

/-- A place in a sequence of tokens, and how many of them were pulled. -/
structure Cursor where
  index : Nat
  pulled : Nat

namespace Cursor

variable (tokens : Nat → Token) (stop : Nat)

def start : Cursor := ⟨0, 0⟩

def token (cursor : Cursor) (offset : Nat) : Token :=
  tokens (min (cursor.index + offset) stop)

def sees (cursor : Cursor) (offset : Nat) (kinds : List Kind) : Bool :=
  (kinds.zipIdx offset).all fun (kind, place) => (cursor.token tokens stop place).kind = kind

/-- How many of the kinds are compared before the last comparison: those in front of the first kind that
differs, or all but the last. -/
def reach (cursor : Cursor) (offset : Nat) (kinds : List Kind) : Nat :=
  min ((kinds.zipIdx offset).findIdx fun (kind, place) => (cursor.token tokens stop place).kind ≠ kind)
    (kinds.length - 1)

def look (cursor : Cursor) (offset : Nat) : Cursor :=
  { cursor with pulled := max cursor.pulled (min (cursor.index + offset + 1) (stop + 1)) }

def lookFor (cursor : Cursor) (offset : Nat) (kinds : List Kind) : Cursor :=
  if kinds = [] then cursor else cursor.look stop (offset + cursor.reach tokens stop offset kinds)

def skip (cursor : Cursor) (count : Nat) : Cursor where
  index := min (cursor.index + count) stop
  pulled := max cursor.pulled (min (cursor.index + count) (stop + 1))

def serve (cursor : Cursor) : Request → Reply × Cursor
  | .peek offset => (.token (cursor.token tokens stop offset), cursor.look stop offset)
  | .peekKind offset => (.kind (cursor.token tokens stop offset).kind, cursor.look stop offset)
  | .discard count => (.done, cursor.skip stop count)
  | .lookahead kinds => (.found (cursor.sees tokens stop 0 kinds), cursor.lookFor tokens stop 0 kinds)

def serveAll (cursor : Cursor) : List Request → List Reply × Cursor
  | [] => ([], cursor)
  | request :: requests =>
    let served := cursor.serve tokens stop request
    let rest := served.2.serveAll requests
    (served.1 :: rest.1, rest.2)

end Cursor

namespace Cursor

variable {tokens : Nat → Token} {stop offset : Nat} {cursor : Cursor} {kind : Kind} {kinds : List Kind}

theorem sees_cons : cursor.sees tokens stop offset (kind :: kinds) =
    (decide ((cursor.token tokens stop offset).kind = kind) &&
      cursor.sees tokens stop (offset + 1) kinds) := rfl

theorem reach_of_ne (other : (cursor.token tokens stop offset).kind ≠ kind) :
    cursor.reach tokens stop offset (kind :: kinds) = 0 := by
  simp [reach, List.findIdx_cons, other]

theorem reach_of_eq (same : (cursor.token tokens stop offset).kind = kind) (more : kinds ≠ []) :
    cursor.reach tokens stop offset (kind :: kinds) =
      cursor.reach tokens stop (offset + 1) kinds + 1 := by
  have positive := List.length_pos_iff.mpr more
  simp only [reach, List.zipIdx_cons, List.findIdx_cons, same, ne_eq, not_true_eq_false, decide_false,
    cond_false, List.length_cons]
  omega

theorem look_look {further : Nat} (above : offset ≤ further) :
    (cursor.look stop offset).look stop further = cursor.look stop further := by
  simp only [look, mk.injEq, true_and]
  omega

theorem lookFor_of_eq (same : (cursor.token tokens stop offset).kind = kind) :
    (cursor.look stop offset).lookFor tokens stop (offset + 1) kinds =
      cursor.lookFor tokens stop offset (kind :: kinds) := by
  have reached : (cursor.look stop offset).reach tokens stop (offset + 1) kinds =
      cursor.reach tokens stop (offset + 1) kinds := rfl
  by_cases none : kinds = []
  · subst none
    simp [lookFor, reach]
  · rw [lookFor, lookFor, if_neg none, if_neg (List.cons_ne_nil _ _), reached,
      look_look (by omega), reach_of_eq same none, Nat.add_right_comm, Nat.add_assoc]

theorem lookFor_of_ne (other : (cursor.token tokens stop offset).kind ≠ kind) :
    cursor.lookFor tokens stop offset (kind :: kinds) = cursor.look stop offset := by
  rw [lookFor, if_neg (List.cons_ne_nil _ _), reach_of_ne other, Nat.add_zero]

theorem look_eq_self (enough : min (cursor.index + offset + 1) (stop + 1) ≤ cursor.pulled) :
    cursor.look stop offset = cursor := by
  rw [look, Nat.max_eq_left enough]

theorem look_pulled (short : cursor.pulled ≤ min (cursor.index + offset) stop) :
    look stop { cursor with pulled := cursor.pulled + 1 } offset = cursor.look stop offset := by
  simp only [look, mk.injEq, true_and]
  omega

theorem look_eq_end (ended : stop ≤ cursor.index + offset) (bound : cursor.pulled ≤ stop + 1) :
    cursor.look stop offset = { cursor with pulled := stop + 1 } := by
  simp only [look, mk.injEq, true_and]
  omega

theorem skip_of_index_eq (ended : cursor.index = stop) (count : Nat) :
    cursor.skip stop (count + 1) = cursor.look stop 0 := by
  rw [skip, look, ended, Nat.min_eq_right (by omega), Nat.min_eq_right (by omega), Nat.add_zero,
    Nat.min_self]

theorem skip_succ (before : cursor.index < stop) (count : Nat) :
    skip stop ⟨cursor.index + 1, (cursor.look stop 0).pulled⟩ count = cursor.skip stop (count + 1) := by
  have place : cursor.index + 1 + count = cursor.index + (count + 1) := by omega
  have pulled : min (cursor.index + 0 + 1) (stop + 1) ≤ min (cursor.index + (count + 1)) (stop + 1) := by
    omega
  rw [skip, skip, look, place, Nat.max_assoc, Nat.max_eq_right pulled]

end Cursor

namespace Window

open TokenStream

variable {σ : Type} [TokenStream σ]

/-- The window stands where the cursor does: it holds the tokens between the place of the cursor and
what was pulled, and knows the end of file once that was pulled. -/
structure Shows (window : Window (Metered σ)) (source : σ) (stop : Nat) (cursor : Cursor) : Prop where
  pulled : cursor.index ≤ cursor.pulled
  index : cursor.index ≤ stop
  bound : cursor.pulled ≤ stop + 1
  meter : window.source = ⟨asked source cursor.pulled, cursor.pulled⟩
  size : window.held.size = min cursor.pulled stop - cursor.index
  held : ∀ offset, cursor.index + offset < min cursor.pulled stop →
    window.held[offset]? = some (drawn source (cursor.index + offset))
  last : window.last = if cursor.pulled = stop + 1 then some (drawn source stop).fileEnd else none

theorem shows_ofSource (source : σ) (stop capacity : Nat) :
    (ofSource (⟨source, 0⟩ : Metered σ) capacity).Shows source stop .start := by
  refine ⟨Nat.le_refl _, Nat.zero_le _, Nat.zero_le _, rfl, ?_, ?_, ?_⟩
  · simp [ofSource, Cursor.start]
  · simp [Cursor.start]
  · simp [ofSource, Cursor.start]

namespace Shows

variable {window : Window (Metered σ)} {source : σ} {stop : Nat} {cursor : Cursor}

theorem size_eq (shows : window.Shows source stop cursor) :
    window.size = cursor.pulled - cursor.index := by
  have pulled := shows.pulled
  have index := shows.index
  have bound := shows.bound
  rw [Window.size, shows.size, shows.last]
  split <;> simp <;> omega

theorem next_eq (shows : window.Shows source stop cursor) :
    next window.source =
      (drawn source cursor.pulled, ⟨asked source (cursor.pulled + 1), cursor.pulled + 1⟩) := by
  rw [shows.meter]
  rfl

theorem push (shows : window.Shows source stop cursor) (before : cursor.pulled < stop)
    (more : (next window.source).1.kind ≠ .fileEnd) :
    Shows { window with
      source := (next window.source).2
      held := window.held.push (next window.source).1
      unended := unended_push window.unended more } source stop
      { cursor with pulled := cursor.pulled + 1 } := by
  have pulled := shows.pulled
  have size := shows.size
  refine ⟨by simp; omega, shows.index, by simp; omega,
    congrArg Prod.snd shows.next_eq, ?_, ?_, ?_⟩
  · simp only [Array.size_push]
    omega
  · intro offset bound
    simp only [shows.next_eq, Array.getElem?_push]
    split
    · rename_i new
      rw [show cursor.index + offset = cursor.pulled by omega]
    · exact shows.held offset (by simp only at bound; omega)
  · have last := shows.last
    rw [if_neg (by omega)] at last
    simp only [last]
    rw [if_neg (by simp; omega)]

theorem close (shows : window.Shows source stop cursor) (reached : cursor.pulled = stop) :
    Shows { window with
      source := (next window.source).2
      last := some (next window.source).1.fileEnd } source stop
      { cursor with pulled := stop + 1 } := by
  have pulled := shows.pulled
  have size := shows.size
  refine ⟨by simp; omega, shows.index, Nat.le_refl _, ?_, ?_, ?_, ?_⟩
  · simp [shows.next_eq, reached]
  · simp only
    omega
  · intro offset bound
    exact shows.held offset (by simp only at bound; omega)
  · simp [shows.next_eq, reached]

theorem bounds (shows : window.Shows source stop cursor) :
    cursor.index ≤ cursor.pulled ∧ cursor.index ≤ stop ∧ cursor.pulled ≤ stop + 1 ∧
      window.held.size = min cursor.pulled stop - cursor.index :=
  ⟨shows.pulled, shows.index, shows.bound, shows.size⟩

theorem pulled_le (shows : window.Shows source stop cursor) (unended : window.last = none) :
    cursor.pulled ≤ stop := by
  have bound := shows.bound
  have open' := shows.last.symm.trans unended
  have before : cursor.pulled ≠ stop + 1 := by
    intro all
    simp [all] at open'
  omega

theorem peek (ends : EndsAt source stop) (shows : window.Shows source stop cursor) (offset : Nat) :
    (window.peek offset).1 = cursor.token (drawn source) stop offset ∧
      (window.peek offset).2.Shows source stop (cursor.look stop offset) := by
  fun_induction Window.peek window offset generalizing cursor with
  | case1 window token found =>
      have held : offset < window.held.size := (Array.getElem?_eq_some_iff.mp found).1
      have bounds := shows.bounds
      have same := shows.held offset (by omega)
      rw [Cursor.token, Nat.min_eq_left (by omega), Cursor.look_eq_self (by omega)]
      exact ⟨Option.some.inj (found.symm.trans same), shows⟩
  | case2 window last outside ended =>
      have beyond : window.held.size ≤ offset := by simpa using outside
      have bounds := shows.bounds
      have closed := shows.last.symm.trans ended
      split at closed
      · rename_i all
        rw [Cursor.token, Nat.min_eq_right (by omega), Cursor.look_eq_self (by omega),
          ← Option.some.inj closed]
        exact ⟨Token.fileEnd_token ends.last, shows⟩
      · simp at closed
  | case3 window outside unended pull =>
      rename_i ended
      have beyond : window.held.size ≤ offset := by simpa using outside
      have bounds := shows.bounds
      have before := shows.pulled_le unended
      have reached := ends.eq_of_kind before ((congrArg (·.1.kind) shows.next_eq).symm.trans ended)
      rw [Cursor.token, Nat.min_eq_right (by omega), Cursor.look_eq_end (by omega) shows.bound]
      exact ⟨by rw [← reached]; exact congrArg Prod.fst shows.next_eq, shows.close reached⟩
  | case4 window outside unended pull more =>
      rename_i ih
      have beyond : window.held.size ≤ offset := by simpa using outside
      have bounds := shows.bounds
      have before := shows.pulled_le unended
      have earlier : cursor.pulled ≠ stop := by
        rintro rfl
        exact more ((congrArg (·.1.kind) shows.next_eq).trans ends.last)
      have rest := ih (shows.push (by omega) more)
      rwa [Cursor.look_pulled (by omega)] at rest

theorem dropFirst (shows : window.Shows source stop cursor) (held : cursor.index < min cursor.pulled stop) :
    window.dropFirst.Shows source stop { cursor with index := cursor.index + 1 } := by
  have size := shows.size
  refine ⟨by simp only; omega, by simp only; omega, shows.bound, shows.meter, ?_, ?_, shows.last⟩
  · simp only [Window.dropFirst, Array.size_extract]
    omega
  · intro offset bound
    simp only at bound
    have found := shows.held (1 + offset) (by omega)
    have bounded := (Array.getElem?_eq_some_iff.mp found).1
    rw [Window.dropFirst, Array.getElem?_extract, if_pos (by omega), found, Nat.add_assoc]

theorem discard (ends : EndsAt source stop) (shows : window.Shows source stop cursor) (count : Nat) :
    (window.discard count).Shows source stop (cursor.skip stop count) := by
  induction count generalizing window cursor with
  | zero =>
      have bounds := shows.bounds
      have same : cursor.skip stop 0 = cursor := by
        obtain ⟨index, pulled⟩ := cursor
        simp only [Cursor.skip, Cursor.mk.injEq] at bounds ⊢
        omega
      rw [same]
      exact shows
  | succ count ih =>
      have looked := (shows.peek ends 0).2
      have bounds := looked.bounds
      simp only [Cursor.look, Nat.add_zero] at bounds
      simp only [Window.discard, Array.isEmpty_iff_size_eq_zero]
      split
      · rename_i empty
        rw [Cursor.skip_of_index_eq (by omega)]
        exact looked
      · rename_i held
        rw [← Cursor.skip_succ (by omega)]
        exact ih (looked.dropFirst (by simp only [Cursor.look]; omega))

theorem matchesFrom (ends : EndsAt source stop) (shows : window.Shows source stop cursor) (offset : Nat)
    (kinds : List Kind) :
    (window.matchesFrom offset kinds).1 = cursor.sees (drawn source) stop offset kinds ∧
      (window.matchesFrom offset kinds).2.Shows source stop
        (cursor.lookFor (drawn source) stop offset kinds) := by
  induction kinds generalizing window cursor offset with
  | nil => exact ⟨rfl, shows⟩
  | cons kind kinds ih =>
      obtain ⟨seen, looked⟩ := shows.peek ends offset
      simp only [Window.matchesFrom, seen, Cursor.sees_cons]
      split
      · rename_i same
        obtain ⟨found, reached⟩ := ih looked (offset + 1)
        rw [Cursor.lookFor_of_eq same] at reached
        refine ⟨?_, reached⟩
        rw [found, decide_eq_true same, Bool.true_and]
        rfl
      · rename_i other
        rw [Cursor.lookFor_of_ne other]
        refine ⟨?_, looked⟩
        rw [decide_eq_false other, Bool.false_and]

theorem serve (ends : EndsAt source stop) (shows : window.Shows source stop cursor) (request : Request) :
    (window.serve request).1 = (cursor.serve (drawn source) stop request).1 ∧
      (window.serve request).2.Shows source stop (cursor.serve (drawn source) stop request).2 := by
  cases request with
  | peek offset =>
      obtain ⟨seen, looked⟩ := shows.peek ends offset
      exact ⟨congrArg Reply.token seen, looked⟩
  | peekKind offset =>
      obtain ⟨seen, looked⟩ := shows.peek ends offset
      exact ⟨congrArg (fun token : Token => Reply.kind token.kind) seen, looked⟩
  | discard count => exact ⟨rfl, shows.discard ends count⟩
  | lookahead kinds =>
      obtain ⟨found, looked⟩ := shows.matchesFrom ends 0 kinds
      exact ⟨congrArg Reply.found found, looked⟩

theorem serveAll (ends : EndsAt source stop) (shows : window.Shows source stop cursor)
    (requests : List Request) :
    (window.serveAll requests).1 = (cursor.serveAll (drawn source) stop requests).1 ∧
      (window.serveAll requests).2.Shows source stop
        (cursor.serveAll (drawn source) stop requests).2 := by
  induction requests generalizing window cursor with
  | nil => exact ⟨rfl, shows⟩
  | cons request requests ih =>
      obtain ⟨replied, served⟩ := shows.serve ends request
      obtain ⟨others, final⟩ := ih served
      refine ⟨?_, final⟩
      rw [Window.serveAll, Cursor.serveAll, replied, others]

theorem size_peek_pos (ends : EndsAt source stop) (shows : window.Shows source stop cursor)
    (offset : Nat) : 0 < (window.peek offset).2.size := by
  have bounds := shows.bounds
  rw [(shows.peek ends offset).2.size_eq]
  simp only [Cursor.look]
  omega

end Shows

end Window

open TokenStream in
/-- Over any stream with its first end of file at `stop`, every run of requests is answered like the
requests to a cursor on what the stream gives.  The stream is asked as often as the cursor says, never
again after the end of file, and the window holds what was pulled and not discarded.  A window always
holds a token that a request can look at. -/
theorem window_refines_cursor {σ : Type} [TokenStream σ] {source : σ} {stop : Nat}
    (ends : EndsAt source stop) (capacity : Nat) (requests : List Request) :
    let window := Window.ofSource (⟨source, 0⟩ : Metered σ) capacity
    let cursor := Cursor.start.serveAll (drawn source) stop requests
    (window.serveAll requests).1 = cursor.1 ∧
    (window.serveAll requests).2.source.pulls = cursor.2.pulled ∧
    cursor.2.pulled ≤ stop + 1 ∧
    cursor.2.index ≤ cursor.2.pulled ∧
    (window.serveAll requests).2.size = cursor.2.pulled - cursor.2.index ∧
    ∀ offset, 0 < ((window.serveAll requests).2.peek offset).2.size := by
  intro window cursor
  obtain ⟨replies, shows⟩ := (Window.shows_ofSource source stop capacity).serveAll ends requests
  exact ⟨replies, congrArg Metered.pulls shows.meter, shows.bound, shows.pulled, shows.size_eq,
    shows.size_peek_pos ends⟩

structure Endless where
  tokens : Nat → Token
  asked : Nat

instance : TokenStream Endless where
  next stream := (stream.tokens stream.asked, { stream with asked := stream.asked + 1 })
  file _ := ""

def restless : Endless where
  tokens
    | 1 => ⟨.identifier, "A", ⟨1, 7⟩⟩
    | 2 => (FileEnd.ofPosition ⟨1, 8⟩).token
    | _ => .symbol (.keyword .classWord) ⟨1, 1⟩
  asked := 0

open TokenStream in
/-- The window stays at the end of file, although the stream would go on without another one. -/
theorem window_refines_cursor_example :
    (∀ index, 2 < index → (drawn restless index).kind ≠ .fileEnd) ∧
    let window := Window.ofSource (⟨restless, 0⟩ : Metered Endless) 0
    let served := window.serveAll [.lookahead [.keyword .classWord, .identifier], .peekKind 9, .discard 5,
      .lookahead [.fileEnd, .fileEnd], .peek 1]
    served.1 = [.found true, .kind .fileEnd, .done, .found true,
      .token (FileEnd.ofPosition ⟨1, 8⟩).token] ∧
    served.2.source.pulls = 3 ∧ served.2.size = 1 := by
  have place (count : Nat) : asked restless count = { restless with asked := count } := by
    induction count with
    | zero => rfl
    | succ count ih =>
        rw [asked, ih]
        rfl
  have ends : EndsAt restless 2 := ⟨rfl, by decide⟩
  refine ⟨fun index behind => ?_, ?_⟩
  · obtain ⟨count, rfl⟩ := Nat.exists_eq_add_of_lt behind
    rw [drawn, place, Nat.add_assoc, Nat.add_comm]
    intro ended
    cases ended
  · obtain ⟨replies, pulls, _, _, size, _⟩ := window_refines_cursor ends 0
      [.lookahead [.keyword .classWord, .identifier], .peekKind 9, .discard 5,
        .lookahead [.fileEnd, .fileEnd], .peek 1]
    exact ⟨replies, pulls, size⟩

end Beagle
