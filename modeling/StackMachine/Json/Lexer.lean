import StackMachine.Json.Token

/-!
# Splitting a JSON text into tokens

The text is read one character at a time. What has been read is a sequence of finished tokens and
at most one unfinished token. Blanks separate tokens and are otherwise dropped.
-/

namespace StackMachine.Json

/-- The unfinished token, its characters or units latest first. -/
inductive Scan
  | between
  | bare (run : List Char)
  | text (units : List Nat)
  /-- A string that ends in a backslash. -/
  | escape (units : List Nat)
  /-- A string that ends in a numeric escape of which `missing` digits have not been read. -/
  | hex (units : List Nat) (value missing : Nat)

/-- What has been read of a text; the finished tokens are in `done`, latest first. -/
structure Lexer where
  done : List Token
  scan : Scan

namespace Lexer

def start : Lexer := ⟨[], .between⟩

def isBlank (c : Char) : Bool := c == ' ' || c == '\n' || c == '\t' || c == '\r'

/-- Whether a character ends a word or a numeral. -/
def isDelimiter (c : Char) : Bool := isBlank c || c == '"' || (Token.ofMark? c).isSome

/-- Reads a character that does not continue any token. -/
def begin (done : List Token) (c : Char) : Lexer :=
  if isBlank c then ⟨done, .between⟩
  else if c = '"' then ⟨done, .text []⟩
  else
    match Token.ofMark? c with
    | some mark => ⟨mark :: done, .between⟩
    | none => ⟨done, .bare [c]⟩

def read? : Lexer → Char → Option Lexer
  | ⟨done, .between⟩, c => some (begin done c)
  | ⟨done, .bare run⟩, c =>
    if isDelimiter c then (begin · c) <$> (· :: done) <$> Token.ofBare? run.reverse
    else some ⟨done, .bare (c :: run)⟩
  | ⟨done, .text units⟩, c =>
    if c = '"' then some ⟨Token.ofUnits units.reverse :: done, .between⟩
    else if c = '\\' then some ⟨done, .escape units⟩
    else if Text.isControl c then none
    else some ⟨done, .text (c.toNat :: units)⟩
  | ⟨done, .escape units⟩, c =>
    if c = 'u' then some ⟨done, .hex units 0 4⟩
    else (fun unit => ⟨done, .text (unit :: units)⟩) <$> Text.unescape? c
  | ⟨done, .hex units value missing⟩, c =>
    (fun digit =>
      let value := 16 * value + digit
      if missing ≤ 1 then ⟨done, .text (value :: units)⟩
      else ⟨done, .hex units value (missing - 1)⟩) <$> Text.hexDigit? c

/-- The tokens that have been read, if none is unfinished. -/
def finish? : Lexer → Option (List Token)
  | ⟨done, .between⟩ => some done.reverse
  | ⟨done, .bare run⟩ => (fun t => (t :: done).reverse) <$> Token.ofBare? run.reverse
  | _ => none

end Lexer

def lex? (cs : List Char) : Option (List Token) :=
  cs.foldlM Lexer.read? Lexer.start >>= Lexer.finish?

end StackMachine.Json
