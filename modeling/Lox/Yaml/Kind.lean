import Lox.Decimal.Reader
import Lox.Text.Fields
import Lox.Yaml.Moment

/-!
# The kinds of nodes

A tag names the kind of a node. A plain scalar without a tag has the kind that its text has the form
of: null, a truth value, an integer, a float, a moment, or else a text.
-/

namespace Lox.Yaml

inductive Kind where
  | null
  | boolean
  | integer
  | float
  | moment
  | text
  /-- The key of a mapping whose entries are taken over. -/
  | merge
  /-- The key of a mapping's own value. -/
  | value
  | sequence
  | mapping
  | unknown
deriving DecidableEq, Repr, Inhabited

def tagNamespace : String := "tag:yaml.org,2002:"

def knownTags : List (String × Kind) :=
  [("null", .null), ("bool", .boolean), ("int", .integer), ("float", .float),
    ("timestamp", .moment), ("str", .text), ("merge", .merge), ("value", .value),
    ("seq", .sequence), ("map", .mapping)]

def Kind.ofTag (tag : String) : Kind :=
  ((knownTags.map fun t => (tagNamespace ++ t.1, t.2)).lookup tag).getD .unknown

/-! ### Forms of numbers -/

def unsigned : List Char → List Char
  | '-' :: cs => cs
  | '+' :: cs => cs
  | cs => cs

def isRun (p : Char → Bool) (cs : List Char) : Bool := !cs.isEmpty && cs.all p

def isDigitOrLine (c : Char) : Bool := c.isDigit || c == '_'

def isSixtieth (cs : List Char) : Bool :=
  match cs with
  | [d] => d.isDigit
  | [d, e] => decide ('0' ≤ d ∧ d ≤ '5') && e.isDigit
  | _ => false

/-- An integer without its sign: binary, octal, hexadecimal, decimal, or to the base of sixty. -/
def isUnsignedInteger (cs : List Char) : Bool :=
  match cs with
  | ['0'] => true
  | '0' :: 'b' :: ds => isRun (fun c => c == '0' || c == '1' || c == '_') ds
  | '0' :: 'x' :: ds => isRun (fun c => (hexValue? c).isSome || c == '_') ds
  | '0' :: ds => isRun (fun c => decide ('0' ≤ c ∧ c ≤ '7') || c == '_') ds
  | d :: _ =>
    match Text.fields ':' cs with
    | first :: sixtieths => d.isDigit && first.all isDigitOrLine && sixtieths.all isSixtieth
    | [] => false
  | [] => false

/-- The exponent at the end of a float, with its sign; it may be missing. -/
def isExponent : List Char → Bool
  | [] => true
  | e :: sign :: ds =>
    (e == 'e' || e == 'E') && (sign == '-' || sign == '+') && isRun Char.isDigit ds
  | _ => false

def infiniteForms : List (List Char) := [".inf", ".Inf", ".INF"].map String.toList

def nanForms : List (List Char) := [".nan", ".NaN", ".NAN"].map String.toList

def isPointed (cs : List Char) : Bool :=
  match cs with
  | d :: _ =>
    match cs.dropWhile isDigitOrLine with
    | '.' :: rest => d.isDigit && isExponent (rest.dropWhile isDigitOrLine)
    | _ => false
  | [] => false

def isFractional : List Char → Bool
  | '.' :: d :: rest => d.isDigit && isExponent (rest.dropWhile isDigitOrLine)
  | _ => false

def isPointedSixtieths (cs : List Char) : Bool :=
  let whole := cs.takeWhile fun c => c != '.'
  match cs.dropWhile (fun c => c != '.'), Text.fields ':' whole with
  | '.' :: rest, (d :: first) :: sixtieth :: sixtieths =>
    rest.all isDigitOrLine && d.isDigit && first.all isDigitOrLine &&
      (sixtieth :: sixtieths).all isSixtieth
  | _, _ => false

def isFloat (cs : List Char) : Bool :=
  isPointed (unsigned cs) || isFractional cs || isPointedSixtieths (unsigned cs) ||
    infiniteForms.contains (unsigned cs) || nanForms.contains cs

/-! ### Words -/

/-- The spellings of a word: small, with a capital, and in capitals. -/
def spellings (word : String) : List String :=
  let cs := word.toList
  [word, String.ofList (cs.take 1 |>.map Char.toUpper) ++ String.ofList (cs.drop 1),
    String.ofList (cs.map Char.toUpper)]

def truthWords : List (String × Bool) :=
  [("yes", true), ("no", false), ("true", true), ("false", false), ("on", true), ("off", false)]

def nullForms : List String := ["", "~"] ++ spellings "null"

def Kind.ofPlain (text : String) : Kind :=
  let cs := text.toList
  if nullForms.contains text then .null
  else if truthWords.any fun w => (spellings w.1).contains text then .boolean
  else if isUnsignedInteger (unsigned cs) then .integer
  else if isFloat cs then .float
  else if (writtenMoment? cs).any fun m => m.time.isSome || m.isPadded then .moment
  else if text == "<<" then .merge
  else if text == "=" then .value
  else .text

/-! ### Values -/

/-- The number that digits denote to a base of at most sixteen; there must be a digit, and each must
be less than the base. -/
def natOfBase? (base : Nat) (cs : List Char) : Option Nat :=
  if cs.isEmpty then none
  else
    cs.foldl (fun n c => do
      let n ← n
      let d ← hexValue? c
      if d < base then some (base * n + d) else none) (some 0)

def ofSixtieths (parts : List Int) : Int := parts.foldr (fun d n => d + 60 * n) 0

/-- The most digits of an integer in decimal notation. -/
def digitLimit : Option Nat := some 4300

def decimal (cs : List Char) : Except Fault Int :=
  match Decimal.integer? digitLimit (String.ofList cs) with
  | some n => .ok n
  | none => .error (invalidValue
      ("invalid literal for int() with base 10: " ++ Text.quoted (String.ofList cs)))

def baseMarks (base : Nat) : List Char :=
  match base with
  | 2 => ['b', 'B']
  | 8 => ['o', 'O']
  | 16 => ['x', 'X']
  | _ => []

def withoutMark (base : Nat) (cs : List Char) : List Char :=
  match cs with
  | '0' :: c :: ds => if (baseMarks base).contains c then ds else cs
  | cs => cs

/-- The integer that digits denote to a base other than ten; blanks around, a sign, and the base's own
announcement may stand with them. -/
def basedInteger (base : Nat) (cs : List Char) : Except Fault Int :=
  let (negative, body) := Decimal.splitSign (Decimal.trimInteger cs)
  match natOfBase? base ((withoutMark base body).map Decimal.asciiDigit) with
  | some n => .ok (if negative then -(n : Int) else n)
  | none => .error (invalidValue
      ("invalid literal for int() with base " ++ toString base ++ ": " ++
        Text.quoted (String.ofList cs)))

def unsignedInteger (cs : List Char) : Except Fault Int :=
  match cs with
  | [] => .error noDigits
  | ['0'] => .ok 0
  | '0' :: 'b' :: ds => basedInteger 2 ds
  | '0' :: 'x' :: ds => basedInteger 16 ds
  | '0' :: _ => basedInteger 8 cs
  | _ =>
    if cs.contains ':' then do
      return ofSixtieths (← (Text.fields ':' cs).mapM decimal).reverse
    else decimal cs

def withoutLines (cs : List Char) : List Char := cs.filter fun c => c != '_'

/-- The integer that a text denotes; underscores count for nothing. -/
def integerOf (text : String) : Except Fault Int := do
  let cs := withoutLines text.toList
  let n ← unsignedInteger (unsigned cs)
  return if cs.head? = some '-' then -n else n

def decimalFloat (cs : List Char) : Except Fault Float :=
  match Decimal.float? (String.ofList cs) with
  | some x => .ok x
  | none => .error (invalidValue
      ("could not convert string to float: " ++ Text.quoted (String.ofList cs)))

def sumSixtieths (unit : Nat) (sum : Float) : List Float → Float
  | [] => sum
  | x :: xs => sumSixtieths (60 * unit) (sum + x * Float.ofNat unit) xs

/-- The float that a text denotes; underscores count for nothing. -/
def floatOf (text : String) : Except Fault Float := do
  let cs := (withoutLines text.toList).map Char.toLower
  let body := unsigned cs
  if cs.isEmpty then throw noDigits
  else if infiniteForms.contains body then
    return if cs.head? = some '-' then -Decimal.infinity else Decimal.infinity
  else if nanForms.contains body then return 0.0 / 0.0
  else
    let x ←
      if body.contains ':' then do
        let parts ← (Text.fields ':' body).mapM decimalFloat
        pure (sumSixtieths 1 0.0 parts.reverse)
      else decimalFloat body
    return if cs.head? = some '-' then -x else x

def Kind.scalar (kind : Kind) (text : String) : Except Fault Data :=
  match kind with
  | .null => .ok .null
  | .text => .ok (.text text)
  | .boolean =>
    let word := String.ofList (text.toList.map Char.toLower)
    match truthWords.lookup word with
    | some b => .ok (.boolean b)
    | none => .error (.uncaught "KeyError" word)
  | .integer => do return .integer (← integerOf text)
  | .float => do return .float (← floatOf text)
  | .moment =>
    match writtenMoment? text.toList with
    | some m => m.toData
    | none => .error (.uncaught "AttributeError" "'NoneType' object has no attribute 'groupdict'")
  | .merge | .value | .sequence | .mapping | .unknown => .error .malformed

end Lox.Yaml
