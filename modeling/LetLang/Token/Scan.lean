import LetLang.Token.Basic

/-!
# Scanning one token

`scan bytes offset` skips blanks from `offset` on and takes the longest token that starts there.
What a token's first byte settles is in `munch`: a one-byte symbol, an operator with one byte of
lookahead, a string literal, or a word.

The offset may be any integer. An offset past the end finds the end of the input there. A negative
offset counts from the end of the source: the scan then sees the last bytes of the source but one,
a blank, and the whole source once more. A `Tape` is what a scan sees, with the offset of its first
cell; a token that starts in the negative part has no span.
-/

namespace LetLang

/-! ## What a scan sees -/

structure Tape where
  start : Int
  cells : Bytes
deriving DecidableEq, Repr

namespace Tape

/--
The part of the source that a scan from the given offset sees.

Of a negative offset `-(k + 1)` the source's last `k + 1` bytes are in reach, or all of them if it
has fewer. The very last one is hidden by the blank at offset `-1`, behind which the source starts
again.
-/
def ofOffset (bytes : Bytes) : Int → Tape
  | .ofNat k => { start := k, cells := bytes.drop k }
  | .negSucc k =>
      let wrapped := (bytes.drop (bytes.length - (k + 1))).dropLast
      { start := -(wrapped.length + 1), cells := wrapped ++ Byte.space :: bytes }

/-- The tape behind its leading blanks. -/
def skipBlanks (tape : Tape) : Tape where
  start := tape.start + (tape.cells.takeWhile Byte.isBlank).length
  cells := tape.cells.dropWhile Byte.isBlank

theorem ofOffset_natCast (bytes : Bytes) (k : Nat) :
    ofOffset bytes k = { start := k, cells := bytes.drop k } := rfl

end Tape

/-! ## What the first byte settles -/

/--
The number of bytes up to the quote that closes a string literal, that quote included. A quote
directly behind a backslash does not close it; `previous` is the byte before the given ones.
-/
def closingQuote? (previous : UInt8) : Bytes → Option Nat
  | [] => none
  | b :: rest =>
      if b = Byte.quote ∧ previous ≠ Byte.backslash then some 1
      else (closingQuote? b rest).map (· + 1)

/-- The kind of a word: a keyword, a number if it holds digits only, else an identifier. -/
def wordKind (word : Bytes) : TokenKind :=
  match Keyword.ofBytes? word with
  | some k => .keyword k
  | none => if word.all Byte.isDigit then .integer else .identifier

/-- The kind and the width of the token that the byte opens when the others follow it. -/
def munch (first : UInt8) (rest : Bytes) : TokenKind × Nat :=
  match Symbol.ofByte? first with
  | some s => (.symbol s, 1)
  | none =>
    match Symbol.operator? first with
    | some (simple, compound) =>
        if rest.head? = some Byte.equals then (.symbol compound, 2) else (.symbol simple, 1)
    | none =>
      if first = Byte.quote then
        match closingQuote? first rest with
        | some n => (.string, n + 1)
        | none => (.illegal, rest.length + 1)
      else
        let word := first :: rest.takeWhile fun b => !Byte.isDelimiter b
        (wordKind word, word.length)

/-- The token that a tape without leading blanks starts with. -/
def Tape.token (tape : Tape) : Except SpanError Token :=
  match tape.cells with
  | [] => Token.ofBounds .endOfInput tape.start tape.start
  | first :: rest =>
      let (kind, width) := munch first rest
      Token.ofBounds kind tape.start (tape.start + width)

/-- The first token from the given offset on. -/
def scan (bytes : Bytes) (offset : Int) : Except SpanError Token :=
  (Tape.ofOffset bytes offset).skipBlanks.token

/-! ## Basic facts -/

theorem closingQuote?_le {previous : UInt8} {bytes : Bytes} {n : Nat}
    (h : closingQuote? previous bytes = some n) : 0 < n ∧ n ≤ bytes.length := by
  induction bytes generalizing previous n with
  | nil => simp [closingQuote?] at h
  | cons b rest ih =>
      unfold closingQuote? at h
      split at h
      · cases h; simp
      · obtain ⟨m, hm, rfl⟩ := Option.map_eq_some_iff.mp h
        have := ih hm
        simp only [List.length_cons]
        omega

theorem wordKind_ne_endOfInput (word : Bytes) : wordKind word ≠ .endOfInput := by
  unfold wordKind
  split
  · simp
  · split <;> simp

theorem munch_fst_ne_endOfInput (first : UInt8) (rest : Bytes) :
    (munch first rest).1 ≠ .endOfInput := by
  unfold munch
  repeat' split
  all_goals simp [wordKind_ne_endOfInput]

theorem munch_snd_pos (first : UInt8) (rest : Bytes) : 0 < (munch first rest).2 := by
  unfold munch
  repeat' split
  all_goals simp

theorem munch_snd_le (first : UInt8) (rest : Bytes) :
    (munch first rest).2 ≤ rest.length + 1 := by
  unfold munch
  split
  · simp
  split
  · split
    · rename_i h
      cases rest with
      | nil => simp at h
      | cons b rest => simp
    · simp
  split
  · split
    · rename_i h
      have := closingQuote?_le h
      simp only
      omega
    · simp
  · simp only [List.length_cons, Nat.add_le_add_iff_right]
    exact (List.takeWhile_sublist _).length_le

/-- From an offset that is not negative, a scan finds a token, and none before the offset. -/
theorem exists_scan_natCast (bytes : Bytes) (k : Nat) :
    ∃ t, scan bytes k = .ok t ∧ k ≤ t.span.start := by
  simp only [scan, Tape.ofOffset_natCast, Tape.skipBlanks, Tape.token]
  rw [← Int.natCast_add]
  split
  · exact ⟨_, Token.ofBounds_natCast _ (Nat.le_refl _), Nat.le_add_right _ _⟩
  · rw [← Int.natCast_add]
    exact ⟨_, Token.ofBounds_natCast _ (Nat.le_add_right _ _), Nat.le_add_right _ _⟩

end LetLang
