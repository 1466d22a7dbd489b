/-
Functions of Go's `strings` that look for white space: `strings.TrimSpace` and `strings.Fields`.

Both go by runes and ask `unicode.IsSpace`; their paths for ASCII compute the same. A byte that is
not UTF-8 is U+FFFD to them, which is no space. `TrimSpace` decodes from the back as well, and
finds the same runes there: a byte that begins a rune cannot stand inside another one.
-/
import Heimdall.Utf8

set_option autoImplicit false

namespace Heimdall.GoStrings

open Heimdall.Utf8

/-- `unicode.IsSpace`, of a rune in its encoding. -/
def isSpaceRune : List UInt8 → Bool
  | [b] => b = 32 || (9 ≤ b && b ≤ 13)
  | [0xC2, b] => b = 0x85 || b = 0xA0
  | [0xE1, b, c] => b = 0x9A && c = 0x80
  | [0xE2, b, c] =>
    (b = 0x80 && (c ≤ 0x8A || c = 0xA8 || c = 0xA9 || c = 0xAF)) || (b = 0x81 && c = 0x9F)
  | [0xE3, b, c] => b = 0x80 && c = 0x80
  | _ => false

def isSpacePiece : Piece → Bool
  | .rune r => isSpaceRune r
  | .bad _ => false

def trimSpace (s : List UInt8) : List UInt8 :=
  (((pieces s).dropWhile isSpacePiece).reverse.dropWhile isSpacePiece).reverse.flatMap Piece.bytes

end Heimdall.GoStrings
