import InterfaceForms.Number.Decimal

/-!
# Scalars of settings documents

The texts of truth values, numbers and points in time.
-/

namespace InterfaceForms.Toml

/-! ## Numbers -/

/-- Digits, with single underscores between two of them. -/
def isDigitRun (isDigit : Char → Bool) : Text → Bool
  | [] => false
  | [c] => isDigit c
  | c :: '_' :: t => isDigit c && isDigitRun isDigit t
  | c :: t => isDigit c && isDigitRun isDigit t

def isHexDigit (c : Char) : Bool :=
  c.isDigit || ('a' ≤ c && c ≤ 'f') || ('A' ≤ c && c ≤ 'F')

def hexDigitValue (c : Char) : Nat :=
  if c.isDigit then c.toNat - '0'.toNat
  else if 'a' ≤ c && c ≤ 'f' then c.toNat - 'a'.toNat + 10
  else c.toNat - 'A'.toNat + 10

/-- The number that digits of a base write, underscores left out. -/
def digitsInBase (base : Nat) (t : Text) : Nat :=
  (t.filter (· ≠ '_')).foldl (fun n c => base * n + hexDigitValue c) 0

/-- Decimal digits of an integer, without a zero in front of others. -/
def isWhole (t : Text) : Bool :=
  isDigitRun Char.isDigit t && (t.length = 1 || t.head? ≠ some '0')

/-- The least number that is no integer of 64 bits. -/
def int64Bound : Nat := Nat.pow 2 63

/-- An integer of 64 bits. -/
def isInteger (t : Text) : Bool :=
  match t with
  | '0' :: 'x' :: digits => isDigitRun isHexDigit digits && digitsInBase 16 digits < int64Bound
  | '0' :: 'o' :: digits =>
    isDigitRun (fun c => '0' ≤ c && c ≤ '7') digits && digitsInBase 8 digits < int64Bound
  | '0' :: 'b' :: digits =>
    isDigitRun (fun c => c = '0' || c = '1') digits && digitsInBase 2 digits < int64Bound
  | t =>
    let (negative, digits) := Decimal.cutSign t
    isWhole digits && digitsInBase 10 digits < int64Bound + (if negative then 1 else 0)

/-- An exponent, from its `e` on. -/
def isExponent : Text → Bool
  | c :: t => (c = 'e' || c = 'E') && isDigitRun Char.isDigit (Decimal.cutSign t).2
  | [] => false

/-- A fraction or an exponent or both. -/
def isFractional : Text → Bool
  | '.' :: t =>
    let digits := t.takeWhile fun c => c.isDigit || c = '_'
    let rest := t.dropWhile fun c => c.isDigit || c = '_'
    isDigitRun Char.isDigit digits && (rest = [] || isExponent rest)
  | t => isExponent t

/-- A floating point number; one that is written out may not be too great for 64 bits. -/
def isFloat (t : Text) : Bool :=
  let unsigned := (Decimal.cutSign t).2
  let whole := unsigned.takeWhile fun c => c.isDigit || c = '_'
  let rest := unsigned.dropWhile fun c => c.isDigit || c = '_'
  unsigned = "inf".toList || unsigned = "nan".toList ||
    (isWhole whole && isFractional rest &&
      Binary64.ofText? (t.filter (· ≠ '_')) ≠ some (.infinity false))

/-! ## Points in time -/

/-- A number of two digits in a range. -/
def isPair (low high : Nat) (a b : Char) : Bool :=
  let n := 10 * (a.toNat - '0'.toNat) + (b.toNat - '0'.toNat)
  a.isDigit && b.isDigit && low ≤ n && n ≤ high

def isLeapYear (year : Nat) : Bool := year % 4 = 0 && (year % 100 ≠ 0 || year % 400 = 0)

def daysInMonth (year month : Nat) : Nat :=
  if month = 2 then (if isLeapYear year then 29 else 28)
  else if month = 4 || month = 6 || month = 9 || month = 11 then 30
  else 31

def isDate : Text → Bool
  | [y1, y2, y3, y4, '-', m1, m2, '-', d1, d2] =>
    [y1, y2, y3, y4].all Char.isDigit && isPair 1 12 m1 m2 &&
      isPair 1 (daysInMonth (digitsInBase 10 [y1, y2, y3, y4]) (digitsInBase 10 [m1, m2])) d1 d2
  | _ => false

/-- What follows the seconds: a fraction or nothing, then, where it is admitted, an offset. -/
def isAfterSeconds (offset : Bool) (t : Text) : Bool :=
  match t with
  | '.' :: t => (t.takeWhile Char.isDigit) ≠ [] && isOffset (t.dropWhile Char.isDigit)
  | t => isOffset t
where
  isOffset : Text → Bool
    | [] => true
    | [c] => offset && (c = 'Z' || c = 'z')
    | [sign, h1, h2, ':', m1, m2] =>
      offset && (sign = '+' || sign = '-') && isPair 0 23 h1 h2 && isPair 0 59 m1 m2
    | _ => false

def isTime (offset : Bool) : Text → Bool
  | h1 :: h2 :: ':' :: m1 :: m2 :: ':' :: s1 :: s2 :: t =>
    isPair 0 23 h1 h2 && isPair 0 59 m1 m2 && isPair 0 60 s1 s2 && isAfterSeconds offset t
  | _ => false

/-- A date, a time, or a date and a time with a `T` or a space between them. -/
def isMoment (t : Text) : Bool :=
  isDate t || isTime false t ||
    (isDate (t.take 10) &&
      match t.drop 10 with
      | c :: time => (c = 'T' || c = 't' || c = ' ') && isTime true time
      | [] => false)

/-! ## Scalars -/

def isScalar (t : Text) : Bool :=
  t = "true".toList || t = "false".toList || isInteger t || isFloat t || isMoment t

/-- The characters of a scalar, but for the space in a point in time. -/
def isScalarChar (c : Char) : Bool :=
  c.isAlphanum || c = '_' || c = '+' || c = '-' || c = '.' || c = ':'

/-- The scalar at the start of a text, and the rest. -/
def cutScalar (t : Text) : Text × Text :=
  let word := t.takeWhile isScalarChar
  let rest := t.dropWhile isScalarChar
  match rest with
  | ' ' :: time@(h1 :: h2 :: ':' :: _) =>
    if isDate word && h1.isDigit && h2.isDigit then
      (word ++ ' ' :: time.takeWhile isScalarChar, time.dropWhile isScalarChar)
    else (word, rest)
  | _ => (word, rest)

end InterfaceForms.Toml
