import LetLang.Byte
import LetLang.Text.CodePoint

/-!
# UTF-8

`Utf8.encode` writes characters as bytes. `Utf8.decode` reads any part of such bytes back, also one
whose ends cut a character: a continuation byte without a lead gives one replacement character, and
a lead byte without its whole character gives one replacement character together with the
continuation bytes behind it.

`Text.encode` refuses a text with surrogates and says where their first run stands.
-/

namespace LetLang

namespace Utf8

def encode (cs : List Char) : Bytes := cs.flatMap String.utf8EncodeChar

/-- The character that stands for bytes that are none. -/
def replacement : Char := '\uFFFD'

/-- The character that the first bytes spell in full; a character has at most four bytes. -/
def first? (bytes : Bytes) : Option Char :=
  (bytes.take 4).toByteArray.utf8DecodeChar? 0

/-- Whether the byte continues a character that an earlier byte opens. -/
def isContinuation (b : UInt8) : Bool := !decide b.IsUTF8FirstByte

/-- The characters that the bytes spell, with replacements where they spell none. -/
def decode (bytes : Bytes) : List Char :=
  match bytes with
  | [] => []
  | b :: rest =>
      match first? (b :: rest) with
      | some c => c :: decode (rest.drop (c.utf8Size - 1))
      | none =>
          if isContinuation b then replacement :: decode rest
          else replacement :: decode (rest.dropWhile isContinuation)
termination_by bytes.length
decreasing_by
  · simp only [List.length_drop, List.length_cons]
    omega
  · simp
  · simp only [List.length_cons]
    have := (List.dropWhile_sublist (p := isContinuation) (l := rest)).length_le
    omega

@[simp] theorem encode_nil : encode [] = [] := rfl

@[simp] theorem encode_cons (c : Char) (cs : List Char) :
    encode (c :: cs) = String.utf8EncodeChar c ++ encode cs := by
  simp [encode]

@[simp] theorem encode_append (cs ds : List Char) : encode (cs ++ ds) = encode cs ++ encode ds := by
  simp [encode]

end Utf8

/-! ## Texts with surrogates -/

/-- Adjacent surrogates: the first one, the index of its code point, and how many there are. -/
structure SurrogateRun where
  first : CodePoint
  start : Nat
  length : Nat
deriving DecidableEq, Repr

namespace Text

def surrogates? (t : Text) : Option SurrogateRun :=
  match t.dropWhile fun p => !p.isSurrogate with
  | [] => none
  | p :: rest =>
      some
        { first := p
          start := (t.takeWhile fun p => !p.isSurrogate).length
          length := (rest.takeWhile CodePoint.isSurrogate).length + 1 }

/-- The UTF-8 encoding of a text without surrogates. -/
def encode (t : Text) : Except SurrogateRun Bytes :=
  match surrogates? t with
  | some run => .error run
  | none => .ok (Utf8.encode (chars t))

theorem dropWhile_map_scalar (cs : List Char) :
    (cs.map CodePoint.scalar).dropWhile (fun p => !p.isSurrogate) = [] := by
  induction cs with
  | nil => rfl
  | cons c cs ih => simpa [CodePoint.isSurrogate] using ih

@[simp] theorem surrogates?_ofString (s : String) : surrogates? (ofString s) = none := by
  simp [surrogates?, ofString, dropWhile_map_scalar]

theorem encode_ofString (s : String) : encode (ofString s) = .ok (Utf8.encode s.toList) := by
  simp [encode]

end Text

end LetLang
