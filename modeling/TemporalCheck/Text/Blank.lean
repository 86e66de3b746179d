/-! Blank characters (the White_Space property), trimming, and lines. -/
namespace TemporalCheck.Text

def isBlank (c : Char) : Bool :=
  let n := c.toNat
  (9 ≤ n && n ≤ 13) || n == 0x20 || n == 0x85 || n == 0xa0 || n == 0x1680 ||
    (0x2000 ≤ n && n ≤ 0x200a) || n == 0x2028 || n == 0x2029 || n == 0x202f || n == 0x205f ||
    n == 0x3000

def trim (s : List Char) : List Char :=
  ((s.dropWhile isBlank).reverse.dropWhile isBlank).reverse

/-- The characters before the first blank. -/
def firstWord (s : List Char) : List Char := s.takeWhile (!isBlank ·)

/-- The pieces between line feeds; nothing follows a last line feed. A carriage return in front of a
line feed stays, as a blank at the end of its line. -/
def lines : List Char → List (List Char)
  | [] => []
  | c :: rest =>
    if c = '\n' then [] :: lines rest
    else
      match lines rest with
      | [] => [[c]]
      | line :: others => (c :: line) :: others

end TemporalCheck.Text
