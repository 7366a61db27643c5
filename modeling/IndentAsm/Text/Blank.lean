/-!
# Blanks

The characters that leave a blank: those with the property White_Space, which
are the controls of the tab and line kind, the spaces, and the separators of
lines and paragraphs.
-/
namespace IndentAsm.Text

/-- Whether a character leaves a blank. -/
def isBlank (c : Char) : Bool :=
  let n := c.toNat
  (0x09 ≤ n && n ≤ 0x0d) || (0x2000 ≤ n && n ≤ 0x200a) ||
    [0x20, 0x85, 0xa0, 0x1680, 0x2028, 0x2029, 0x202f, 0x205f, 0x3000].contains n

def trim (s : String) : String :=
  String.ofList ((s.toList.dropWhile isBlank).reverse.dropWhile isBlank).reverse

end IndentAsm.Text
