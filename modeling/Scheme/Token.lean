import Scheme.Symbol
import Scheme.Number.Numeral
import Scheme.Text.Glyphless
/-!
# Tokens
-/

namespace Scheme

inductive Token where
  | opening
  | closing
  | vectorOpening
  | quote
  | backquote
  | comma
  | commaAt
  | dot
  | boolean (value : Bool)
  | number (value : Float)
  | character (value : Char)
  | string (value : List Char)
  | symbol (value : Symbol)
  | endOfInput
deriving DecidableEq

/-- A character of a quoted text in a log entry; `mark` is the quotation mark around it. -/
def escapeForLog (mark : Char) (c : Char) : List Char :=
  if c = mark ∨ c = '\\' then ['\\', c]
  else if c = '\n' then ['\\', 'n']
  else if c = '\t' then ['\\', 't']
  else if c = '\r' then ['\\', 'r']
  else if c = '\x00' then ['\\', '0']
  else if Text.isGlyphless c then
    '\\' :: 'u' :: '\x7b' :: Nat.toDigits 16 c.toNat ++ ['\x7d']
  else [c]

/-- How a log entry shows a token. -/
def Token.logText : Token → String
  | .opening => "Open"
  | .closing => "Close"
  | .vectorOpening => "OpenVector"
  | .quote => "Quote"
  | .backquote => "BackQuote"
  | .comma => "Comma"
  | .commaAt => "CommaAt"
  | .dot => "Dot"
  | .boolean value => if value then "Boolean(true)" else "Boolean(false)"
  | .number value => "Number(" ++ Number.toLogText value ++ ")"
  | .character value => "Character('" ++ String.ofList (escapeForLog '\x27' value) ++ "')"
  | .string value => "String(\"" ++ String.ofList (value.flatMap (escapeForLog '\x22')) ++ "\")"
  | .symbol value => "Symbol(Symbol(" ++ value.name ++ "))"
  | .endOfInput => "Eof"

end Scheme
