/-! JSON text. Only what readers of settings need is kept of a value: of a number, whether it is
written as a natural number; of a string, its characters if its escapes denote characters. -/
namespace TemporalCheck

inductive Json where
  | null
  | bool (value : Bool)
  /-- The number, if it is written with digits alone. -/
  | number (natural : Option Nat)
  /-- The characters, unless an escape stands for half of a pair only. -/
  | string (chars : Option (List Char))
  | array (items : List Json)
  | object (members : List (Option (List Char) × Json))

namespace Json

def isSpace (c : Char) : Bool := c = ' ' || c = '\n' || c = '\t' || c = '\r'

def skipSpace (s : List Char) : List Char := s.dropWhile isSpace

/-- The rest of the text behind an expected start. -/
def after? (expected : List Char) (s : List Char) : Option (List Char) :=
  if expected.isPrefixOf s then some (s.drop expected.length) else none

def hexDigit? (c : Char) : Option Nat :=
  if c.isDigit then some (c.toNat - '0'.toNat)
  else if 'a' ≤ c && c ≤ 'f' then some (c.toNat - 'a'.toNat + 10)
  else if 'A' ≤ c && c ≤ 'F' then some (c.toNat - 'A'.toNat + 10)
  else none

/-- The number written by the next four hexadecimal digits. -/
def hexUnit? : List Char → Option (Nat × List Char)
  | a :: b :: c :: d :: rest => do
    let high := (← hexDigit? a) * 16 + (← hexDigit? b)
    let low := (← hexDigit? c) * 16 + (← hexDigit? d)
    return (high * 256 + low, rest)
  | _ => none

/-- A sixteen-bit unit of a string: a whole character, or what an escape with digits denotes. -/
inductive Unit16 where
  | char (c : Char)
  | code (n : Nat)

def simpleEscape? : Char → Option Char
  | '"' => some '"'
  | '\\' => some '\\'
  | '/' => some '/'
  | 'b' => some '\x08'
  | 'f' => some '\x0c'
  | 'n' => some '\n'
  | 'r' => some '\r'
  | 't' => some '\t'
  | _ => none

/-- The units of a string up to its closing mark. -/
def units? : (fuel : Nat) → List Char → Option (List Unit16 × List Char)
  | 0, _ => none
  | _, [] => none
  | fuel + 1, c :: rest =>
    if c = '"' then some ([], rest)
    else if c.toNat < 0x20 then none
    else if c = '\\' then
      match rest with
      | 'u' :: rest => do
        let (n, rest) ← hexUnit? rest
        let (units, rest) ← units? fuel rest
        return (.code n :: units, rest)
      | e :: rest => do
        let plain ← simpleEscape? e
        let (units, rest) ← units? fuel rest
        return (.char plain :: units, rest)
      | [] => none
    else do
      let (units, rest) ← units? fuel rest
      return (.char c :: units, rest)

/-- The characters that the units denote; surrogates must come in pairs. -/
def decode? : List Unit16 → Option (List Char)
  | [] => some []
  | .char c :: rest => (decode? rest).map (c :: ·)
  | .code high :: .code low :: rest =>
    if 0xD800 ≤ high && high < 0xDC00 then
      if 0xDC00 ≤ low && low < 0xE000 then
        (decode? rest).map (Char.ofNat (0x10000 + (high - 0xD800) * 0x400 + (low - 0xDC00)) :: ·)
      else none
    else if 0xDC00 ≤ high && high < 0xE000 then none
    else (decode? (.code low :: rest)).map (Char.ofNat high :: ·)
  | .code n :: rest =>
    if 0xD800 ≤ n && n < 0xE000 then none else (decode? rest).map (Char.ofNat n :: ·)

/-- Digits, of which there must be one at least, and what follows them. -/
def digits? (s : List Char) : Option (List Char × List Char) :=
  match s.takeWhile Char.isDigit with
  | [] => none
  | digits => some (digits, s.dropWhile Char.isDigit)

/-- The fraction of a number, if there is one; the truth value says whether. -/
def fraction? : List Char → Option (Bool × List Char)
  | '.' :: rest => (digits? rest).map fun (_, rest) => (true, rest)
  | s => some (false, s)

/-- The exponent of a number, if there is one; the truth value says whether. -/
def exponent? (s : List Char) : Option (Bool × List Char) :=
  match s with
  | c :: rest =>
    if c = 'e' || c = 'E' then
      let unsigned := match rest with
        | d :: others => if d = '+' || d = '-' then others else rest
        | [] => []
      (digits? unsigned).map fun (_, rest) => (true, rest)
    else some (false, s)
  | [] => some (false, [])

def number? (s : List Char) : Option (Json × List Char) := do
  let (negative, unsigned) := match s with
    | '-' :: rest => (true, rest)
    | _ => (false, s)
  let (digits, rest) ← digits? unsigned
  if digits.head? = some '0' && 1 < digits.length then none
  else
    let (fractional, rest) ← fraction? rest
    let (scaled, rest) ← exponent? rest
    let natural := digits.foldl (fun n c => 10 * n + (c.toNat - '0'.toNat)) 0
    return (.number (if negative || fractional || scaled then none else some natural), rest)

mutual
/-- A value at the start of the text, and the rest. -/
def value? : (fuel : Nat) → List Char → Option (Json × List Char)
  | 0, _ => none
  | fuel + 1, s =>
    match skipSpace s with
    | [] => none
    | 'n' :: rest => (after? ['u', 'l', 'l'] rest).map fun rest => (.null, rest)
    | 't' :: rest => (after? ['r', 'u', 'e'] rest).map fun rest => (.bool true, rest)
    | 'f' :: rest => (after? ['a', 'l', 's', 'e'] rest).map fun rest => (.bool false, rest)
    | '"' :: rest => (units? (rest.length + 1) rest).map fun (units, rest) =>
      (.string (decode? units), rest)
    | '[' :: rest =>
      match skipSpace rest with
      | ']' :: rest => some (.array [], rest)
      | rest => (items? fuel rest).map fun (items, rest) => (.array items, rest)
    | '\x7b' :: rest =>
      match skipSpace rest with
      | '\x7d' :: rest => some (.object [], rest)
      | rest => (members? fuel rest).map fun (members, rest) => (.object members, rest)
    | c :: rest => number? (c :: rest)

def items? : (fuel : Nat) → List Char → Option (List Json × List Char)
  | 0, _ => none
  | fuel + 1, s => do
    let (item, rest) ← value? fuel s
    match skipSpace rest with
    | ',' :: rest => do
      let (items, rest) ← items? fuel rest
      return (item :: items, rest)
    | ']' :: rest => some ([item], rest)
    | _ => none

def members? : (fuel : Nat) → List Char → Option (List (Option (List Char) × Json) × List Char)
  | 0, _ => none
  | fuel + 1, s =>
    match skipSpace s with
    | '"' :: rest => do
      let (units, rest) ← units? (rest.length + 1) rest
      let rest ← after? [':'] (skipSpace rest)
      let (value, rest) ← value? fuel rest
      match skipSpace rest with
      | ',' :: rest => do
        let (members, rest) ← members? fuel rest
        return ((decode? units, value) :: members, rest)
      | '\x7d' :: rest => some ([(decode? units, value)], rest)
      | _ => none
    | _ => none
end

/-- The value that the whole text denotes. No two of the calls above come one after the other
without taking a character. -/
def parse? (s : List Char) : Option Json := do
  let (value, rest) ← value? (2 * s.length + 2) s
  if (skipSpace rest).isEmpty then some value else none

end Json
end TemporalCheck
