import Coalition.Text.Character
import Coalition.Text.Lexeme

-- `->` is a single token, and the last token marks the end.

set_option autoImplicit false

namespace Coalition.Expression

open Coalition.Text

structure Token where
  text : String
  isEnd : Bool
  start : Option Position
  ahead : Option Char
  /-- The first complaint about the text up to and including this token. -/
  complaint : Option String

def startsName (c : Char) : Bool := c == '_' || isLetter c

def continuesName (c : Char) : Bool := startsName c || isDigit c || c == '.'

def lexemeRules : LexemeRules := ⟨startsName, continuesName, true⟩

def firstComplaint (sofar : Option String) (complaints : List Complaint) : Option String :=
  sofar <|> (complaints.head?.map (·.message))

def nextToken (complaint : Option String) (cursor : Cursor) : Token × Cursor :=
  let (lexeme, cursor) := cursor.lexeme lexemeRules
  let complaint := firstComplaint complaint lexeme.complaints
  let text := String.ofList lexeme.text
  match lexeme.text, cursor.unread with
  | ['-'], '>' :: rest =>
      let position := cursor.position.after '>'
      (⟨"->", false, none, rest.head?, firstComplaint complaint (complainAhead rest position)⟩,
        ⟨rest, position⟩)
  | _, unread =>
      (⟨text, lexeme.kind = .ending, some lexeme.start, unread.head?, complaint⟩, cursor)

/-- All tokens, the end included. Every token but the end takes a character. -/
def tokensFrom : (fuel : Nat) → Option String → Cursor → List Token
  | 0, _, _ => []
  | fuel + 1, complaint, cursor =>
      let (token, cursor) := nextToken complaint cursor
      if token.isEnd then [token] else token :: tokensFrom fuel token.complaint cursor

def tokens (text : List Char) : List Token :=
  let (cursor, said) := Cursor.ofText text
  tokensFrom (text.length + 1) (firstComplaint none said) cursor

end Coalition.Expression
