import CoScript.Text.Integer

/-!
# JSON documents

Documents keep the order of the members of an object. A key that comes again keeps its place and
takes the last value. Beside the standard's numbers, `NaN`, `Infinity` and `-Infinity` are read.

Results:
* `Json.parse?`: the document that a text holds.
-/

namespace CoScript

/-- A JSON document. -/
inductive Json where
  | null
  | bool (value : Bool)
  | whole (value : Int)
  | float (value : Float)
  | string (value : String)
  | array (items : List Json)
  | object (members : List (String × Json))
  deriving Repr, Inhabited

namespace Json

/-- A member put among others: in its old place if the key is there, else at the end. -/
def setMember (key : String) (value : Json) : List (String × Json) → List (String × Json)
  | [] => [(key, value)]
  | (k, v) :: r => if k = key then (k, value) :: r else (k, v) :: setMember key value r

/-- The value of a member. -/
def get? (j : Json) (key : String) : Option Json :=
  match j with
  | object members => members.lookup key
  | _ => none

/-! ## Reading -/

/-- The blanks between the parts of a document. -/
def isBlank (c : Char) : Bool :=
  c = ' ' || c = '\t' || c = '\n' || c = '\r'

/-- A text without the blanks at its start. -/
def skipBlanks (cs : List Char) : List Char :=
  cs.dropWhile isBlank

/-- The value of a digit in base sixteen. -/
def hexValue? (c : Char) : Option Nat :=
  if c.isDigit then some (c.toNat - 48)
  else if 'a' ≤ c && c ≤ 'f' then some (c.toNat - 87)
  else if 'A' ≤ c && c ≤ 'F' then some (c.toNat - 55)
  else none

/-- The number that four digits in base sixteen spell, and the text after them. -/
def hex4? : List Char → Option (Nat × List Char)
  | a :: b :: c :: d :: r => do
    let a ← hexValue? a
    let b ← hexValue? b
    let c ← hexValue? c
    let d ← hexValue? d
    return (((a * 16 + b) * 16 + c) * 16 + d, r)
  | _ => none

/-- The character of an escape by number, and the text after it. Two escapes of a surrogate pair
    make one character; a half without the other becomes the replacement character. -/
def unicodeEscape? (cs : List Char) : Option (Char × List Char) := do
  let (n, rest) ← hex4? cs
  if 0xd800 ≤ n && n < 0xdc00 then
    match rest with
    | '\\' :: 'u' :: more =>
      let (m, after) ← hex4? more
      if 0xdc00 ≤ m && m < 0xe000 then
        return (Char.ofNat (0x10000 + (n - 0xd800) * 0x400 + (m - 0xdc00)), after)
      else return ('\ufffd', rest)
    | _ => return ('\ufffd', rest)
  else if 0xdc00 ≤ n && n < 0xe000 then return ('\ufffd', rest)
  else return (Char.ofNat n, rest)

/-- The character that a letter after a backslash stands for. -/
def shortEscape? : Char → Option Char
  | '"' => some '"'
  | '\\' => some '\\'
  | '/' => some '/'
  | 'b' => some '\x08'
  | 'f' => some '\x0c'
  | 'n' => some '\n'
  | 'r' => some '\r'
  | 't' => some '\t'
  | _ => none

/-- The rest of a string up to its closing quote, and the text after it. Each round takes a
    character, so `fuel` above the length of the text is enough. -/
def stringRest? : Nat → List Char → Option (List Char × List Char)
  | 0, _ => none
  | _, [] => none
  | _, '"' :: r => some ([], r)
  | fuel + 1, '\\' :: 'u' :: r => do
    let (c, rest) ← unicodeEscape? r
    let (cs, rest) ← stringRest? fuel rest
    return (c :: cs, rest)
  | fuel + 1, '\\' :: e :: r => do
    let c ← shortEscape? e
    let (cs, rest) ← stringRest? fuel r
    return (c :: cs, rest)
  | fuel + 1, c :: r =>
    if c = '\\' || c.toNat < 0x20 then none
    else do
      let (cs, rest) ← stringRest? fuel r
      return (c :: cs, rest)

/-- A string after its opening quote. -/
def string? (cs : List Char) : Option (String × List Char) := do
  let (s, rest) ← stringRest? (cs.length + 1) cs
  return (String.ofList s, rest)

/-- The value of decimal digits. -/
def digitsValue (cs : List Char) : Nat :=
  cs.foldl (fun n c => 10 * n + (c.toNat - 48)) 0

/-- The digits of a fraction after its point, if there is one, and the text after it. -/
def fractionPart : List Char → List Char × List Char
  | '.' :: d :: r => if d.isDigit then (d :: r).span Char.isDigit else ([], '.' :: d :: r)
  | cs => ([], cs)

/-- The digits of an exponent after its sign. -/
def exponentDigits? (negative : Bool) (cs : List Char) : Option (Int × List Char) :=
  let (ds, rest) := cs.span Char.isDigit
  if ds.isEmpty then none
  else
    let n : Int := digitsValue ds
    some (if negative then -n else n, rest)

/-- An exponent with its letter. -/
def exponent? : List Char → Option (Int × List Char)
  | e :: cs =>
    if e = 'e' || e = 'E' then
      match cs with
      | '+' :: r => exponentDigits? false r
      | '-' :: r => exponentDigits? true r
      | r => exponentDigits? false r
    else none
  | [] => none

/-- The digits before the point: a zero alone, or digits that do not start with one. -/
def wholePart? : List Char → Option (List Char × List Char)
  | [] => none
  | c :: r =>
    if c = '0' then some (['0'], r)
    else if c.isDigit then some ((c :: r).span Char.isDigit)
    else none

/-- The double `mantissa · 10 ^ scale`. An exponent far out of range is cut, which gives the same
    zero or infinity. -/
def scaledFloat (negative : Bool) (mantissa : Nat) (digits : Nat) (scale : Int) : Float :=
  let scale := max (-(400 + digits : Int)) (min 400 scale)
  let x := if scale < 0 then Float.ofScientific mantissa true scale.natAbs
    else Float.ofScientific mantissa false scale.natAbs
  if negative then -x else x

/-- A number without its sign. One without fraction and exponent is whole, and may only have so many
    digits. -/
def number? (negative : Bool) (cs : List Char) : Option (Json × List Char) := do
  let (front, rest) ← wholePart? cs
  let (part, rest) := fractionPart rest
  let ds := front ++ part
  match exponent? rest with
  | some (e, rest) =>
    return (float (scaledFloat negative (digitsValue ds) ds.length (e - part.length)), rest)
  | none =>
    if part.isEmpty then
      if Text.maxDigits < front.length then none
      else
        let n : Int := digitsValue front
        return (whole (if negative then -n else n), rest)
    else return (float (scaledFloat negative (digitsValue ds) ds.length (-part.length)), rest)

/-- A value written as a word. -/
def word? (cs : List Char) : Option (Json × List Char) :=
  let words : List (String × Json) := [
    ("null", null), ("true", bool true), ("false", bool false), ("NaN", float (0.0 / 0.0)),
    ("Infinity", float (1.0 / 0.0)), ("-Infinity", float (-1.0 / 0.0))]
  words.findSome? fun (w, j) => (w.toList.isPrefixOf? cs).map (j, ·)

mutual

/-- The value at the start of a text, and the text after it. Each call takes a character or is the
    only one at its place, so `fuel` above twice the length is enough. -/
def value? : Nat → List Char → Option (Json × List Char)
  | 0, _ => none
  | fuel + 1, cs =>
    match cs with
    | '"' :: r => (string? r).map fun (s, rest) => (string s, rest)
    | '[' :: r =>
      match skipBlanks r with
      | ']' :: rest => some (array [], rest)
      | r => (items? fuel r).map fun (items, rest) => (array items, rest)
    | '{' :: r =>
      match skipBlanks r with
      | '}' :: rest => some (object [], rest)
      | r => (members? fuel [] r).map fun (members, rest) => (object members, rest)
    | cs =>
      match word? cs with
      | some found => some found
      | none =>
        match cs with
        | '-' :: r => number? true r
        | r => number? false r

/-- The items of an array after its bracket, and the text after its end. -/
def items? : Nat → List Char → Option (List Json × List Char)
  | 0, _ => none
  | fuel + 1, cs =>
    match value? fuel (skipBlanks cs) with
    | none => none
    | some (item, rest) =>
      match skipBlanks rest with
      | ',' :: r => (items? fuel r).map fun (items, rest) => (item :: items, rest)
      | ']' :: r => some ([item], r)
      | _ => none

/-- The members of an object after those found before, and the text after its end. -/
def members? : Nat → List (String × Json) → List Char → Option (List (String × Json) × List Char)
  | 0, _, _ => none
  | fuel + 1, found, cs =>
    match skipBlanks cs with
    | '"' :: r =>
      match string? r with
      | none => none
      | some (key, rest) =>
        match skipBlanks rest with
        | ':' :: r =>
          match value? fuel (skipBlanks r) with
          | none => none
          | some (value, rest) =>
            let found := setMember key value found
            match skipBlanks rest with
            | ',' :: r => members? fuel found r
            | '}' :: r => some (found, r)
            | _ => none
        | _ => none
    | _ => none

end

/-- The document that a text holds, with blanks around it and nothing else. -/
def parse? (s : String) : Option Json :=
  let cs := s.toList
  match value? (2 * cs.length + 2) (skipBlanks cs) with
  | some (j, rest) => if (skipBlanks rest).isEmpty then some j else none
  | none => none

end Json

end CoScript
