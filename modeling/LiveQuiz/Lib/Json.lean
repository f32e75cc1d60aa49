import Mathlib.Data.List.Nodup

/-! # JSON texts

A value, the compact ASCII text that is written for it, and the reader of such texts with
white space, all escapes and all numbers. Reading gives back what was written.
-/

namespace Json

set_option autoImplicit false

/-- A finite float is kept as the text that is written for it. -/
inductive Value where
  | null
  | bool (b : Bool)
  | int (n : Int)
  | real (token : String)
  | nan
  | infinity (negative : Bool)
  | str (s : String)
  | arr (xs : List Value)
  | obj (items : List (String × Value))

def quoteMark : Char := Char.ofNat 34

def backslash : Char := Char.ofNat 92

def hexDigits (n : Nat) : List Char :=
  [(n / 4096 % 16).digitChar, (n / 256 % 16).digitChar, (n / 16 % 16).digitChar, (n % 16).digitChar]

def unicodeEscape (n : Nat) : List Char := backslash :: 'u' :: hexDigits n

def letterOf (n : Nat) : Option Char :=
  if n = 34 then some quoteMark
  else if n = 92 then some backslash
  else if n = 10 then some 'n'
  else if n = 13 then some 'r'
  else if n = 9 then some 't'
  else if n = 12 then some 'f'
  else if n = 8 then some 'b'
  else none

def codeUnits (c : Char) : List Nat :=
  if c.toNat < 0x10000 then [c.toNat]
  else [0xd800 + (c.toNat - 0x10000) / 0x400, 0xdc00 + (c.toNat - 0x10000) % 0x400]

def escapeChar (c : Char) : List Char :=
  match letterOf c.toNat with
  | some e => [backslash, e]
  | none =>
    if 32 ≤ c.toNat ∧ c.toNat ≤ 126 then [c]
    else (codeUnits c).flatMap unicodeEscape

def quote (s : String) : List Char := quoteMark :: (s.toList.flatMap escapeChar ++ [quoteMark])

def printInt : Int → List Char
  | .ofNat n => Nat.toDigits 10 n
  | .negSucc n => '-' :: Nat.toDigits 10 (n + 1)

def printBool (b : Bool) : List Char := if b then "true".toList else "false".toList

mutual

def print : Value → List Char
  | .null => "null".toList
  | .bool b => printBool b
  | .int n => printInt n
  | .real token => token.toList
  | .nan => "NaN".toList
  | .infinity negative => if negative then "-Infinity".toList else "Infinity".toList
  | .str s => quote s
  | .arr xs => '[' :: (printElements xs ++ [']'])
  | .obj items => Char.ofNat 123 :: (printMembers items ++ [Char.ofNat 125])

def printElements : List Value → List Char
  | [] => []
  | [x] => print x
  | x :: xs => print x ++ ',' :: printElements xs

def printMembers : List (String × Value) → List Char
  | [] => []
  | [(k, x)] => quote k ++ ':' :: print x
  | (k, x) :: items => quote k ++ ':' :: (print x ++ ',' :: printMembers items)

end

def dumps (v : Value) : String := String.ofList (print v)

def isSpace (c : Char) : Bool := c.toNat = 32 || c.toNat = 9 || c.toNat = 10 || c.toNat = 13

def skip (cs : List Char) : List Char := cs.dropWhile isSpace

def hexValue (c : Char) : Option Nat :=
  if 48 ≤ c.toNat ∧ c.toNat ≤ 57 then some (c.toNat - 48)
  else if 97 ≤ c.toNat ∧ c.toNat ≤ 102 then some (c.toNat - 87)
  else if 65 ≤ c.toNat ∧ c.toNat ≤ 70 then some (c.toNat - 55)
  else none

def hexUnit (a b c d : Char) : Option Nat := do
  let a ← hexValue a
  let b ← hexValue b
  let c ← hexValue c
  let d ← hexValue d
  return 4096 * a + 256 * b + 16 * c + d

def letterCode (e : Char) : Option Nat :=
  if e = quoteMark then some 34
  else if e = backslash then some 92
  else if e = '/' then some 47
  else if e = 'n' then some 10
  else if e = 'r' then some 13
  else if e = 't' then some 9
  else if e = 'f' then some 12
  else if e = 'b' then some 8
  else none

/-- The code units of a string up to its closing mark, and what follows it. -/
def readUnits : List Char → Option (List Nat × List Char)
  | [] => none
  | c :: cs =>
    if c = quoteMark then some ([], cs)
    else if c = backslash then
      match cs with
      | [] => none
      | e :: cs =>
        match letterCode e with
        | some n => (readUnits cs).map fun r => (n :: r.1, r.2)
        | none =>
          if e = 'u' then
            match cs with
            | a :: b :: c :: d :: cs =>
              (hexUnit a b c d).bind fun n => (readUnits cs).map fun r => (n :: r.1, r.2)
            | _ => none
          else none
    else if c.toNat < 32 then none
    else (readUnits cs).map fun r => (c.toNat :: r.1, r.2)

def isHigh (n : Nat) : Bool := 0xd800 ≤ n ∧ n < 0xdc00

def isLow (n : Nat) : Bool := 0xdc00 ≤ n ∧ n < 0xe000

/-- The characters of code units. A surrogate on its own is none. -/
def joinUnits : List Nat → Option (List Char)
  | [] => some []
  | n :: ns =>
    if isHigh n then
      match ns with
      | m :: ns =>
        if isLow m then
          (joinUnits ns).map (Char.ofNat (0x10000 + (n - 0xd800) * 0x400 + (m - 0xdc00)) :: ·)
        else none
      | [] => none
    else if isLow n then none
    else (joinUnits ns).map (Char.ofNat n :: ·)

def readString (cs : List Char) : Option (String × List Char) :=
  (readUnits cs).bind fun r => (joinUnits r.1).map fun s => (String.ofList s, r.2)

/-- `0` or digits that do not begin with one. -/
def readNat : List Char → Option (List Char × List Char)
  | c :: cs =>
    if c = '0' then some (['0'], cs)
    else if c.isDigit then some (c :: cs.takeWhile Char.isDigit, cs.dropWhile Char.isDigit)
    else none
  | [] => none

def readFraction : List Char → List Char × List Char
  | [] => ([], [])
  | c :: cs =>
    if c = '.' ∧ cs.takeWhile Char.isDigit ≠ [] then
      (c :: cs.takeWhile Char.isDigit, cs.dropWhile Char.isDigit)
    else ([], c :: cs)

def isSign (c : Char) : Bool := c = '+' ∨ c = '-'

def signOf : List Char → List Char
  | [] => []
  | c :: _ => if isSign c then [c] else []

/-- The exponent of a number, if digits follow its letter and sign. -/
def readExponent : List Char → List Char × List Char
  | [] => ([], [])
  | c :: cs =>
    let ds := cs.drop (signOf cs).length
    if (c = 'e' ∨ c = 'E') ∧ ds.takeWhile Char.isDigit ≠ [] then
      (c :: (signOf cs ++ ds.takeWhile Char.isDigit), ds.dropWhile Char.isDigit)
    else ([], c :: cs)

section

variable (float : String → Value)

/-- `float` is what the text of a number with a fraction or an exponent stands for. -/
def readUnsigned (negative : Bool) (cs : List Char) : Option (Value × List Char) :=
  (readNat cs).map fun r =>
    let f := readFraction r.2
    let e := readExponent f.2
    if f.1 = [] ∧ e.1 = [] then
      let n : Nat := Nat.ofDigitChars 10 r.1 0
      (.int (if negative then -n else n), e.2)
    else (float (String.ofList ((if negative then ['-'] else []) ++ r.1 ++ f.1 ++ e.1)), e.2)

def readNumber : List Char → Option (Value × List Char)
  | [] => none
  | c :: cs => if c = '-' then readUnsigned float true cs else readUnsigned float false (c :: cs)

def readWord (word : String) (v : Value) (cs : List Char) : Option (Value × List Char) :=
  if word.toList.isPrefixOf cs then some (v, cs.drop word.length) else none

/-- A dict keeps the place of a key's first item and the value of its last. -/
def insert (items : List (String × Value)) (item : String × Value) : List (String × Value) :=
  if items.any (·.1 = item.1) then items.map fun i => if i.1 = item.1 then item else i
  else items ++ [item]

def dict (items : List (String × Value)) : List (String × Value) := items.foldl insert []

mutual

def readValue : Nat → List Char → Option (Value × List Char)
  | 0, _ => none
  | _, [] => none
  | n + 1, c :: cs =>
    if c = quoteMark then (readString cs).map fun r => (.str r.1, r.2)
    else if c = Char.ofNat 123 then
      match skip cs with
      | c :: cs =>
        if c = Char.ofNat 125 then some (.obj [], cs)
        else (readMembers n (c :: cs)).map fun r => (.obj (dict r.1), r.2)
      | [] => none
    else if c = '[' then
      match skip cs with
      | c :: cs =>
        if c = ']' then some (.arr [], cs)
        else (readElements n (c :: cs)).map fun r => (.arr r.1, r.2)
      | [] => none
    else if c = 'n' then readWord "null" .null (c :: cs)
    else if c = 't' then readWord "true" (.bool true) (c :: cs)
    else if c = 'f' then readWord "false" (.bool false) (c :: cs)
    else if c = 'N' then readWord "NaN" .nan (c :: cs)
    else if c = 'I' then readWord "Infinity" (.infinity false) (c :: cs)
    else (readWord "-Infinity" (.infinity true) (c :: cs)).or (readNumber float (c :: cs))

def readElements : Nat → List Char → Option (List Value × List Char)
  | 0, _ => none
  | n + 1, cs =>
    (readValue n cs).bind fun r =>
      match skip r.2 with
      | c :: cs =>
        if c = ',' then (readElements n (skip cs)).map fun s => (r.1 :: s.1, s.2)
        else if c = ']' then some ([r.1], cs)
        else none
      | [] => none

def readMembers : Nat → List Char → Option (List (String × Value) × List Char)
  | 0, _ => none
  | _, [] => none
  | n + 1, q :: cs =>
    if q = quoteMark then
      (readString cs).bind fun k =>
        match skip k.2 with
        | c :: cs =>
          if c = ':' then
            (readValue n (skip cs)).bind fun r =>
              match skip r.2 with
              | c :: cs =>
                if c = ',' then (readMembers n (skip cs)).map fun s => ((k.1, r.1) :: s.1, s.2)
                else if c = Char.ofNat 125 then some ([(k.1, r.1)], cs)
                else none
              | [] => none
          else none
        | [] => none
    else none

end

def loads (s : String) : Option Value :=
  (readValue float (2 * s.toList.length + 2) (skip s.toList)).bind fun r =>
    if skip r.2 = [] then some r.1 else none

end

end Json
