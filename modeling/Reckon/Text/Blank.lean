import Reckon.Text.Ranges

/-! Blank characters in the sense of the Unicode property White_Space. -/

namespace Reckon.Text

def whiteSpace : Ranges := [
  (0x9, 0xd), (0x20, 0x20), (0x85, 0x85), (0xa0, 0xa0), (0x1680, 0x1680), (0x2000, 0x200a),
  (0x2028, 0x2029), (0x202f, 0x202f), (0x205f, 0x205f), (0x3000, 0x3000)]

def isBlank (char : Char) : Bool := whiteSpace.contains char

def trimEnd (text : List Char) : List Char := (text.reverse.dropWhile isBlank).reverse

end Reckon.Text
