import StakeConsensus.Arithmetic.Checked
import StakeConsensus.Json.Basic
import StakeConsensus.Text.Hex

/-!
# Words of a TOML document

Blanks and line ends, keys, strings, numbers and dates. Every reader takes the
characters from its place on and returns what it read and what follows. Control
characters other than the tab stand nowhere, and a carriage return only before a
line feed.

Numbers with a fraction or an exponent and dates are checked but not evaluated.
-/

namespace StakeConsensus.Toml

/-! ### Lines -/

def isBlank (c : Char) : Bool := c = ' ' || c = '\t'

def skipBlanks (cs : List Char) : List Char := cs.dropWhile isBlank

/-- A character that may stand for itself in comments and strings. -/
def isPlain (c : Char) : Bool := c = '\t' || (32 ≤ c.toNat && c.toNat ≠ 127)

/-- What follows a line break. -/
def afterBreak : List Char → Option (List Char)
  | '\n' :: rest => some rest
  | '\r' :: '\n' :: rest => some rest
  | _ => none

def skipComment : List Char → List Char
  | '#' :: rest => rest.dropWhile isPlain
  | cs => cs

/-- What follows a line of which nothing is left but blanks and a comment. -/
def afterLine (cs : List Char) : Option (List Char) :=
  match skipComment (skipBlanks cs) with
  | [] => some []
  | cs => afterBreak cs

/-- Skips blanks and line breaks, and comments where `comments` holds. The fuel bounds
the lines. -/
def skipLines (comments : Bool) : Nat → List Char → List Char
  | 0, cs => cs
  | fuel + 1, cs =>
    let cs := skipBlanks cs
    match afterBreak (if comments then skipComment cs else cs) with
    | some rest => skipLines comments fuel rest
    | none => cs

/-! ### Strings -/

/-- The value of a run of hexadecimal digits. -/
def hexNumber (ds : List Char) : Option Nat :=
  ds.foldlM (fun n d =>
    if d.toNat < 128 then (Hex.value? d.toNat.toUInt8).map fun v => n * 16 + v.toNat else none) 0

/-- The character with the number that `count` hexadecimal digits give. -/
def escapedNumber (count : Nat) (cs : List Char) : Option (Char × List Char) :=
  if cs.length < count then none
  else
    match hexNumber (cs.take count) with
    | none => none
    | some n => if n.isValidChar then some (Char.ofNat n, cs.drop count) else none

/-- The character of an escape, after its backslash. -/
def escaped : List Char → Option (Char × List Char)
  | 'b' :: rest => some ('\x08', rest)
  | 't' :: rest => some ('\t', rest)
  | 'n' :: rest => some ('\n', rest)
  | 'f' :: rest => some ('\x0c', rest)
  | 'r' :: rest => some ('\r', rest)
  | '"' :: rest => some ('"', rest)
  | '\\' :: rest => some ('\\', rest)
  | 'u' :: rest => escapedNumber 4 rest
  | 'U' :: rest => escapedNumber 8 rest
  | _ => none

/-- A string whose characters all stand for themselves, up to its quote. -/
def literalTail (cs : List Char) : Option (String × List Char) :=
  match cs.span fun c => isPlain c && c ≠ '\'' with
  | (text, '\'' :: rest) => some (String.ofList text, rest)
  | _ => none

/-- The rest of a string with escapes, its characters so far in reverse. The fuel
bounds the characters. -/
def basicTail : Nat → List Char → List Char → Option (String × List Char)
  | 0, _, _ => none
  | fuel + 1, acc, cs =>
    match cs with
    | '"' :: rest => some (String.ofList acc.reverse, rest)
    | '\\' :: rest =>
      match escaped rest with
      | some (c, rest) => basicTail fuel (c :: acc) rest
      | none => none
    | c :: rest => if isPlain c then basicTail fuel (c :: acc) rest else none
    | [] => none

/-- What follows a line break that a backslash hides, with the blanks and breaks
after it. -/
def afterHiddenBreak (cs : List Char) : Option (List Char) :=
  (afterBreak (skipBlanks cs)).map fun rest => skipLines false (rest.length + 1) rest

/-- The rest of a string in three quotes. Up to two quotes belong to the text, also
right before its end. The fuel bounds the characters. -/
def multilineTail (quote : Char) : Nat → List Char → List Char → Option (String × List Char)
  | 0, _, _ => none
  | fuel + 1, acc, cs =>
    match cs with
    | [] => none
    | c :: rest =>
      if c = quote then
        let quotes := (cs.takeWhile (· = quote)).length
        if quotes < 3 then multilineTail quote fuel (c :: acc) rest
        else
          let own := min (quotes - 3) 2
          some (String.ofList (acc.reverse ++ List.replicate own quote), cs.drop (own + 3))
      else if c = '\\' ∧ quote = '"' then
        match afterHiddenBreak rest with
        | some rest => multilineTail quote fuel acc rest
        | none =>
          match escaped rest with
          | some (e, rest) => multilineTail quote fuel (e :: acc) rest
          | none => none
      else if isPlain c then multilineTail quote fuel (c :: acc) rest
      else
        match afterBreak cs with
        | some rest => multilineTail quote fuel ('\n' :: acc) rest
        | none => none

/-- A string in three quotes. A break right after the first quotes is not part of it. -/
def multiline (quote : Char) (cs : List Char) : Option (String × List Char) :=
  let body := (afterBreak cs).getD cs
  multilineTail quote (body.length + 1) [] body

/-- A string in one pair of quotes. -/
def quoted : List Char → Option (String × List Char)
  | '"' :: rest => basicTail (rest.length + 1) [] rest
  | '\'' :: rest => literalTail rest
  | _ => none

def string : List Char → Option (String × List Char)
  | '"' :: '"' :: '"' :: rest => multiline '"' rest
  | '\'' :: '\'' :: '\'' :: rest => multiline '\'' rest
  | cs => quoted cs

/-! ### Keys -/

/-- The most names of a key, and the most lists around a value. -/
def maxDepth : Nat := 79

def isBare (c : Char) : Bool := c.isAlphanum || c = '_' || c = '-'

/-- One name. -/
def name (cs : List Char) : Option (String × List Char) :=
  match cs with
  | '"' :: _ | '\'' :: _ => quoted cs
  | _ =>
    match cs.span isBare with
    | ([], _) => none
    | (text, rest) => some (String.ofList text, rest)

/-- Names with dots between them. The fuel bounds the names. -/
def key : Nat → List Char → Option (List String × List Char)
  | 0, _ => none
  | fuel + 1, cs =>
    match name (skipBlanks cs) with
    | none => none
    | some (n, rest) =>
      match skipBlanks rest with
      | '.' :: rest => (key fuel rest).map fun (names, rest) => (n :: names, rest)
      | rest => some ([n], rest)

/-! ### Numbers -/

/-- Digits, between which single underscores may stand. -/
def digitRun (isDigit : Char → Bool) (cs : List Char) : Option (List Char × List Char) :=
  let (run, rest) := cs.span fun c => isDigit c || c = '_'
  let wellFormed (l : List Char) : Bool :=
    (l.zip l.tail).all fun (a, b) => a ≠ '_' || b ≠ '_'
  if run.isEmpty || run.head? = some '_' || run.getLast? = some '_' || !wellFormed run then none
  else some (run.filter (· ≠ '_'), rest)

def decimalValue (ds : List Char) : Nat := ds.foldl (fun n d => n * 10 + (d.toNat - 48)) 0

/-- An integer of 64 bits. -/
def integer (n : Int) (rest : List Char) : Option (Json × List Char) :=
  if -halfWord ≤ n ∧ n < halfWord then some (.integer n, rest) else none

/-- The digits of an integer of another base. -/
def based (base : Nat) (cs : List Char) : Option (Json × List Char) :=
  let isDigit (c : Char) : Bool :=
    c.toNat < 128 && match Hex.value? c.toNat.toUInt8 with
      | some v => v.toNat < base
      | none => false
  match digitRun isDigit cs with
  | none => none
  | some (ds, rest) =>
    let value := ds.foldl (fun n d => n * base + ((Hex.value? d.toNat.toUInt8).getD 0).toNat) 0
    integer value rest

def sign : List Char → List Char × List Char
  | '+' :: rest => (['+'], rest)
  | '-' :: rest => (['-'], rest)
  | cs => ([], cs)

/-- The digits before the point; a leading zero stands alone. -/
def whole : List Char → Option (List Char × List Char)
  | '0' :: rest => some (['0'], rest)
  | cs => digitRun Char.isDigit cs

def fraction : List Char → Option (List Char × List Char)
  | '.' :: rest => digitRun Char.isDigit rest
  | cs => some ([], cs)

/-- The exponent, if there is one. -/
def exponent : List Char → Option (Option Int × List Char)
  | c :: rest =>
    if c = 'e' ∨ c = 'E' then
      let (s, rest) := sign rest
      (digitRun Char.isDigit rest).map fun (ds, rest) =>
        (some (if s = ['-'] then -(decimalValue ds : Int) else decimalValue ds), rest)
    else some (none, c :: rest)
  | [] => some (none, [])

/-- The first decimal number that has no finite form in 64 bits: halfway between the
largest one and the power of two above it. -/
def floatLimit : Nat := (1 <<< 1024) - (1 <<< 970)

/-- Whether `digits` times ten to the `exponent` is too large for a number. Numbers of
very many digits are compared by their number alone. -/
def isTooLarge (digits : List Char) (exponent : Int) : Bool :=
  let digits := digits.dropWhile (· = '0')
  let length : Int := digits.length + exponent
  if digits.isEmpty ∨ length < 309 then false
  else if 309 < length then true
  else
    let n := decimalValue digits
    if exponent < 0 then floatLimit * Nat.pow 10 exponent.natAbs ≤ n
    else floatLimit ≤ n * Nat.pow 10 exponent.natAbs

/-- A decimal number. One that is too large is refused, unless it is negative. -/
def decimal (cs : List Char) : Option (Json × List Char) :=
  let (s, afterSign) := sign cs
  match whole afterSign with
  | none => none
  | some (ds, rest) =>
    match fraction rest with
    | none => none
    | some (frac, rest) =>
      match exponent rest with
      | none => none
      | some (exp, rest) =>
        if frac.isEmpty && exp.isNone then
          integer (if s = ['-'] then -(decimalValue ds : Int) else decimalValue ds) rest
        else if s ≠ ['-'] && isTooLarge (ds ++ frac) (exp.getD 0 - frac.length) then none
        else
          let spelling := cs.take (cs.length - rest.length)
          some (.decimal (String.ofList (spelling.filter (· ≠ '_'))), rest)

/-- A number of any kind. -/
def number (cs : List Char) : Option (Json × List Char) :=
  match cs with
  | '0' :: 'x' :: rest => based 16 rest
  | '0' :: 'o' :: rest => based 8 rest
  | '0' :: 'b' :: rest => based 2 rest
  | _ =>
    match sign cs with
    | (_, 'i' :: 'n' :: 'f' :: rest) => some (.decimal "inf", rest)
    | (_, 'n' :: 'a' :: 'n' :: rest) => some (.decimal "nan", rest)
    | _ => decimal cs

/-! ### Dates -/

/-- A number of exactly `count` digits in a range. -/
def fixedNumber (count low high : Nat) (cs : List Char) : Option (Nat × List Char) :=
  let ds := cs.take count
  let n := decimalValue ds
  if ds.length = count ∧ ds.all Char.isDigit ∧ low ≤ n ∧ n ≤ high then some (n, cs.drop count)
  else none

/-- A given character. -/
def symbol (c : Char) : List Char → Option (List Char)
  | d :: rest => if d = c then some rest else none
  | [] => none

def daysOfMonth (year month : Nat) : Nat :=
  if month = 2 then
    if year % 4 = 0 ∧ (year % 100 ≠ 0 ∨ year % 400 = 0) then 29 else 28
  else if month = 4 ∨ month = 6 ∨ month = 9 ∨ month = 11 then 30
  else 31

def afterDate (cs : List Char) : Option (List Char) := do
  let (year, rest) ← fixedNumber 4 0 9999 cs
  let (month, rest) ← fixedNumber 2 1 12 (← symbol '-' rest)
  return (← fixedNumber 2 1 (daysOfMonth year month) (← symbol '-' rest)).2

def afterTime (cs : List Char) : Option (List Char) := do
  let (_, rest) ← fixedNumber 2 0 23 cs
  let (_, rest) ← fixedNumber 2 0 59 (← symbol ':' rest)
  let (_, rest) ← fixedNumber 2 0 60 (← symbol ':' rest)
  match rest with
  | '.' :: rest =>
    let (ds, rest) := rest.span Char.isDigit
    if ds.isEmpty then none else some rest
  | rest => some rest

/-- What follows the distance from universal time, which may be missing. -/
def afterOffset (cs : List Char) : Option (List Char) :=
  match cs with
  | 'Z' :: rest | 'z' :: rest => some rest
  | '+' :: rest | '-' :: rest => do
    let (_, rest) ← fixedNumber 2 0 23 rest
    return (← fixedNumber 2 0 59 (← symbol ':' rest)).2
  | cs => some cs

/-- What follows a date, a time or both. -/
def afterMoment (cs : List Char) : Option (List Char) :=
  match afterDate cs with
  | none => afterTime cs
  | some rest =>
    match rest with
    | c :: time =>
      if c = 'T' ∨ c = 't' ∨ c = ' ' then
        match afterTime time with
        | some rest => afterOffset rest
        | none => some rest
      else some rest
    | [] => some []

/-- A date is an object with one field of its own, so that it is no text. -/
def moment (cs : List Char) : Option (Json × List Char) :=
  (afterMoment cs).map fun rest =>
    (.object [("$date", .string (String.ofList (cs.take (cs.length - rest.length))))], rest)

end StakeConsensus.Toml
