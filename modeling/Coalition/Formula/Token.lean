import Coalition.Text.Character
import Coalition.Text.Lexeme

-- A quoted name is a token of its own kind, `->` and `<->` are single tokens, and the last token marks the end.

set_option autoImplicit false

namespace Coalition

structure ParseError where
  line : Int
  column : Nat
  token : String
  reason : String
deriving DecidableEq, Repr

def ParseError.message (e : ParseError) : String :=
  let place := s!"line {e.line}, column {e.column}: {e.reason}"
  if e.token.isEmpty then place else place ++ " (at " ++ Text.quoted e.token ++ ")"

namespace Formula

open Coalition.Text

structure Token where
  text : String
  isQuoted : Bool
  isEnd : Bool
  line : Int
  column : Nat
  /-- What was found wrong with the text up to and including this token. -/
  fault : Option ParseError

def startsName (c : Char) : Bool := c == '_' || isLetter c || isDigit c

def continuesName (c : Char) : Bool := startsName c || c == '.'

def lexemeRules : LexemeRules := ⟨startsName, continuesName, false⟩

def Token.error (t : Token) (reason : String) : ParseError :=
  ⟨t.line, t.column, if t.isEnd then "" else t.text, reason⟩

/-- The first complaint becomes the fault, if there is none yet. -/
def noteFault (firstLine : Int) (token : String) (fault : Option ParseError)
    (complaints : List Complaint) : Option ParseError :=
  match fault, complaints with
  | none, c :: _ => some ⟨firstLine + c.position.line - 1, c.position.column, token, c.message⟩
  | fault, _ => fault

/-- The text up to a closing quote, or nothing when the end comes first. -/
def readQuoted (cursor : Cursor) : Option (List Char) × Cursor × List Complaint :=
  go cursor.unread cursor.position [] []
where
  go : List Char → Position → List Char → List Complaint →
      Option (List Char) × Cursor × List Complaint
    | [], position, _, said => (none, ⟨[], position⟩, said)
    | c :: rest, position, taken, said =>
        let position := position.after c
        let said := said ++ complainAhead rest position
        if c = '\'' then (some taken.reverse, ⟨rest, position⟩, said)
        else go rest position (c :: taken) said

/-- The next token, given the text of the one before it and the fault so far. -/
def nextToken (firstLine : Int) (previous : String) (fault : Option ParseError) (cursor : Cursor) :
    Token × Cursor :=
  let (lexeme, cursor) := cursor.lexeme lexemeRules
  let fault := noteFault firstLine previous fault lexeme.complaints
  let text := String.ofList lexeme.text
  let place (position : Position) (text : String) (quoted ends : Bool) (fault : Option ParseError) :
      Token := ⟨text, quoted, ends, firstLine + position.line - 1, position.column, fault⟩
  match lexeme.kind, lexeme.text, cursor.unread with
  | .ending, _, _ => (place lexeme.start text false true fault, cursor)
  | .quotation, _, _ => (place lexeme.start (trimQuotes text) true false fault, cursor)
  | .sign, ['\''], _ =>
      match readQuoted cursor with
      | (some name, cursor, said) =>
          (place cursor.position (String.ofList name) true false
            (noteFault firstLine text fault said), cursor)
      | (none, cursor, said) =>
          let fault := noteFault firstLine text fault
            (said ++ [⟨"unterminated quoted name", cursor.position⟩])
          (place cursor.position text false true fault, cursor)
  | .sign, ['-'], '>' :: rest =>
      let after := cursor.position.after '>'
      (place after "->" false false (noteFault firstLine text fault (complainAhead rest after)),
        ⟨rest, after⟩)
  | .sign, ['<'], '-' :: rest =>
      let middle := cursor.position.after '-'
      let fault := noteFault firstLine text fault (complainAhead rest middle)
      match rest with
      | '>' :: rest =>
          let after := middle.after '>'
          (place after "<->" false false (noteFault firstLine text fault (complainAhead rest after)),
            ⟨rest, after⟩)
      | _ =>
          let token := place middle text false false none
          ({ token with fault := some (token.error "expected \"<->\"") }, ⟨rest, middle⟩)
  | _, _, _ => (place lexeme.start text false false fault, cursor)

/-- All tokens, the end included. Every token but the end takes a character. -/
def tokensFrom (firstLine : Int) : (fuel : Nat) → String → Option ParseError → Cursor → List Token
  | 0, _, _, _ => []
  | fuel + 1, previous, fault, cursor =>
      let (token, cursor) := nextToken firstLine previous fault cursor
      if token.isEnd then [token]
      else token :: tokensFrom firstLine fuel token.text token.fault cursor

def tokens (firstLine : Int) (text : List Char) : List Token :=
  let (cursor, said) := Cursor.ofText text
  tokensFrom firstLine (text.length + 1) "" (noteFault firstLine "" none said) cursor

end Formula

end Coalition
