import Lox.Diagnostic.Basic
import Lox.Token.Basic

/-!
# Reading tokens

A source text is read from left to right: layout (blanks and comments) is skipped, then the longest
token that begins there is taken. Strings stand on one line and have no escapes; numbers are digits
with at most one point between digits; a word begins with a letter or an underscore. The tokens
before a fault are kept beside it.
-/

namespace Lox

/-! ### Faults -/

inductive LexError where
  | unexpectedCharacter (c : Char)
  | unterminatedString
deriving DecidableEq, Repr

namespace LexError

def code : LexError → String
  | unexpectedCharacter _ => "E001"
  | unterminatedString => "E002"

def message : LexError → String
  | unexpectedCharacter c => "unexpected character '" ++ String.singleton c ++ "'"
  | unterminatedString => "unterminated string literal"

def hints : LexError → List String
  | unexpectedCharacter _ => []
  | unterminatedString => ["string literals must be closed with a matching '\"'"]

def diagnostic (e : LexError) (span : Span) (source : String) : Diagnostic where
  code := e.code
  message := e.message
  severity := .error
  span := span
  sourceLine := Source.line? source span.first.line
  hints := e.hints

end LexError

namespace Lexer

/-! ### Layout -/

def isLayout (c : Char) : Bool := c == ' ' || c == '\t' || c == '\r' || c == '\n'

/-- Skips layout: the place and the text behind it. A comment runs from two slashes to the end of
the line. -/
def skipLayout (inComment : Bool) (p : Position) : List Char → Position × List Char
  | [] => (p, [])
  | c :: cs =>
    if inComment then skipLayout (c != '\n') (p.next c) cs
    else if isLayout c then skipLayout false (p.next c) cs
    else if c == '/' && cs.head? == some '/' then skipLayout true (p.next c) cs
    else (p, c :: cs)

theorem length_skipLayout_le (inComment : Bool) (p : Position) (cs : List Char) :
    (skipLayout inComment p cs).2.length ≤ cs.length := by
  induction cs generalizing inComment p with
  | nil => simp [skipLayout]
  | cons c cs ih =>
    rw [skipLayout]
    repeat' split
    all_goals
      first
      | exact Nat.le_refl _
      | exact Nat.le_succ_of_le (ih _ _)

/-! ### Lexemes -/

def single? : Char → Option TokenKind
  | '(' => some .leftParen
  | ')' => some .rightParen
  | '{' => some .leftBrace
  | '}' => some .rightBrace
  | ',' => some .comma
  | '.' => some .dot
  | ';' => some .semicolon
  | '+' => some .plus
  | '-' => some .minus
  | '*' => some .star
  | '/' => some .slash
  | _ => none

/-- The kinds of a character that an equals sign may follow: with it, and alone. -/
def paired? : Char → Option (TokenKind × TokenKind)
  | '!' => some (.notEqual, .bang)
  | '=' => some (.equal, .assign)
  | '<' => some (.lessEqual, .less)
  | '>' => some (.greaterEqual, .greater)
  | _ => none

def beginsWord (c : Char) : Bool := Text.isLetter c || c == '_'

def inWord (c : Char) : Bool := Text.isWordChar c || c == '_'

/-- The digits at the front of a text, with a point and further digits if a digit follows it. -/
def numberLexeme (cs : List Char) : List Char :=
  let whole := cs.takeWhile Char.isDigit
  match cs.dropWhile Char.isDigit with
  | '.' :: d :: rest =>
    if d.isDigit then whole ++ '.' :: d :: rest.takeWhile Char.isDigit else whole
  | _ => whole

/-- What stands at the front of a text that is no layout: a token of some kind, or a fault together
with the characters it covers. -/
inductive Lexeme where
  | token (kind : TokenKind) (text : List Char)
  | fault (error : LexError) (text : List Char)
deriving DecidableEq, Repr

def lexeme (c : Char) (cs : List Char) : Lexeme :=
  if c == '"' then
    let body := cs.takeWhile fun d => d != '"' && d != '\n'
    match cs.drop body.length with
    | '"' :: _ => .token .string (c :: (body ++ ['"']))
    | _ => .fault .unterminatedString (c :: body)
  else if c.isDigit then .token .number (numberLexeme (c :: cs))
  else if beginsWord c then
    let word := c :: cs.takeWhile inWord
    .token (TokenKind.ofWord (String.ofList word)) word
  else
    match paired? c with
    | some (withEquals, alone) =>
      if cs.head? == some '=' then .token withEquals [c, '='] else .token alone [c]
    | none =>
      match single? c with
      | some kind => .token kind [c]
      | none => .fault (.unexpectedCharacter c) [c]

theorem numberLexeme_ne_nil {c : Char} (hc : c.isDigit = true) (cs : List Char) :
    numberLexeme (c :: cs) ≠ [] := by
  unfold numberLexeme
  rw [List.takeWhile_cons_of_pos hc]
  dsimp only
  repeat' split
  all_goals simp

theorem lexeme_token_ne_nil {c : Char} {cs text : List Char} {kind : TokenKind}
    (h : lexeme c cs = .token kind text) : text ≠ [] := by
  unfold lexeme at h
  dsimp only at h
  repeat' split at h
  all_goals
    first
    | cases h
      first
      | exact List.cons_ne_nil _ _
      | exact numberLexeme_ne_nil ‹_› cs
    | cases h

/-! ### Token sequences -/

/-- The tokens read from a text, and the fault that ended the reading, if any. -/
structure Scan where
  tokens : List Token
  fault : Option (LexError × Span)
deriving Repr, Inhabited

/-- Reads the tokens from a position on; the last one is the end of the program, unless there is a
fault. -/
def scanFrom (file : String) (p : Position) (cs : List Char) : Scan :=
  match _hs : skipLayout false p cs with
  | (q, []) => ⟨[⟨.endOfInput, "", ⟨file, q, q⟩⟩], none⟩
  | (q, d :: ds) =>
    match _hl : lexeme d ds with
    | .token kind text =>
      let r := q.after text
      let tail := scanFrom file r ((d :: ds).drop text.length)
      ⟨⟨kind, String.ofList text, ⟨file, q, r⟩⟩ :: tail.tokens, tail.fault⟩
    | .fault error text => ⟨[], some (error, ⟨file, q, q.after text⟩)⟩
termination_by cs.length
decreasing_by
  have h1 : (d :: ds).length ≤ cs.length := by
    have := length_skipLayout_le false p cs
    rw [_hs] at this
    exact this
  have h2 : 0 < text.length := List.length_pos_iff.2 (lexeme_token_ne_nil _hl)
  simp only [List.length_drop, List.length_cons] at h1 ⊢
  omega

def scan (file source : String) : Scan := scanFrom file .origin source.toList

/-- The tokens of a source without a fault, or the report of the first fault. -/
def tokenize (file source : String) : Except Diagnostic (List Token) :=
  let s := scan file source
  match s.fault with
  | none => .ok s.tokens
  | some (error, span) => .error (error.diagnostic span source)

end Lexer

end Lox
