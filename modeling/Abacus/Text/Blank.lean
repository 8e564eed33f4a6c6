/-!
# White space and lines

White space is what the standard for characters calls so; besides the blanks of the language it holds
line ends and the spaces of other scripts. A text falls into lines after each line end, of which
there are seven; a carriage return with a line feed after it is one line end.
-/

namespace Abacus

/-- The characters that are white space. -/
def isWhiteSpace (c : Char) : Bool :=
  let n := c.toNat
  (9 ≤ n && n ≤ 13) || n == 0x20 || n == 0x85 || n == 0xa0 || n == 0x1680 ||
    (0x2000 ≤ n && n ≤ 0x200a) || n == 0x2028 || n == 0x2029 || n == 0x202f || n == 0x205f ||
    n == 0x3000

/-- A text without the white space at its end. -/
def trimEnd (text : List Char) : List Char := (text.reverse.dropWhile isWhiteSpace).reverse

/-- A text without the white space at either end. -/
def trim (text : List Char) : List Char := trimEnd (text.dropWhile isWhiteSpace)

/-- The characters that end a line. -/
def isLineEnd (c : Char) : Bool :=
  let n := c.toNat
  (10 ≤ n && n ≤ 13) || n == 0x85 || n == 0x2028 || n == 0x2029

/-- The lines of a text, each with its line end. The last line may lack one, and a line end at the
end of the text opens no further line. -/
def lines : List Char → List (List Char)
  | [] => []
  | '\r' :: '\n' :: rest => ['\r', '\n'] :: lines rest
  | c :: rest =>
    if isLineEnd c then [c] :: lines rest
    else
      match lines rest with
      | [] => [[c]]
      | line :: more => (c :: line) :: more

/-- Nothing of a text is lost in its lines. -/
theorem flatten_lines (text : List Char) : (lines text).flatten = text := by
  fun_induction lines text <;> simp_all

end Abacus
