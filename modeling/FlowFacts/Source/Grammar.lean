import FlowFacts.Source.Tree
import FlowFacts.Text.Reader

/-!
# The grammar of program texts

Blanks and comments may stand between any two tokens. Choices are tried in order, and keywords
need no boundary after them, so `brlabel%a` is a jump and `retx` an opcode of its own.
-/

namespace FlowFacts.Source

/-! ## Layout and tokens -/

/-- Whether a character ends a line. -/
def isLineEnd (c : Char) : Bool := c = '\n' || c = '\r'

/-- Whether a character is blank. -/
def isBlank (c : Char) : Bool := c = ' ' || c = '\t' || isLineEnd c

/-- Passes over blanks and comments. A comment reaches from a semicolon to the end of the line;
    the flag says whether the text starts inside one. -/
def skipLayout : Bool → List Char → List Char
  | _, [] => []
  | true, c :: rest => skipLayout (!isLineEnd c) rest
  | false, c :: rest =>
    if isBlank c then skipLayout false rest
    else if c = ';' then skipLayout true rest
    else c :: rest

/-- Reads with `p` after any layout. -/
def token {α : Type} (p : Reader α) : Reader α := fun s => p (skipLayout false s)

def keyword (w : String) : Reader Unit := token (Reader.word w)

def symbol (c : Char) : Reader Unit := token (Reader.char c)

/-- Whether a character may occur in a name. -/
def isIdentChar (c : Char) : Bool := c.isAlphanum || c = '_' || c = '.'

/-- Reads a bare name, with no layout before it. -/
def ident : Reader String := String.ofList <$> Reader.span1 isIdentChar

/-- Reads the name of a value, such as `%x`. -/
def valueName : Reader String := token (Reader.char '%' *> ident)

/-- Reads the name of a global symbol, such as `@f`. -/
def globalName : Reader String := token (Reader.char '@' *> ident)

/-- Reads a label and its colon. -/
def labelDef : Reader String := token (ident <* Reader.char ':')

/-- Reads an integer literal: an optional minus sign and digits. -/
def integer : Reader String := token do
  let sign ← Reader.option (Reader.char '-')
  let digits ← Reader.span1 Char.isDigit
  return String.ofList (if sign.isSome then '-' :: digits else digits)

/-- Reads a word that is not part of a longer name. -/
def wholeWord (w : String) : Reader Unit :=
  token (Reader.word w <* Reader.notAhead (Reader.span1 isIdentChar))

/-- Reads an opcode: a lower-case letter, then letters and digits. -/
def opcode : Reader String := token fun
  | c :: rest =>
    if c.isLower then
      some (String.ofList (c :: rest.takeWhile Char.isAlphanum), rest.dropWhile Char.isAlphanum)
    else none
  | [] => none

/-! ## Instructions -/

/-- Reads an operand. The result of the next instruction is not one. -/
def term : Reader Term :=
  Reader.notAhead (valueName *> symbol '=') *>
    ((.value <$> valueName) <|> (.global <$> globalName) <|> (.integer <$> integer) <|>
      (wholeWord "null" *> pure .null) <|> (wholeWord "undef" *> pure .undefined))

/-- Reads operands, if there are any. -/
def terms : Reader (List Term) := do
  return (← Reader.option (Reader.sepBy1 term (symbol ','))).getD []

/-- Reads a reference to a label. -/
def labelRef : Reader String := keyword "label" *> valueName

/-- Reads an operand of a merge and the label it arrives from. -/
def incoming : Reader (Term × String) := do
  symbol '['
  let value ← term
  symbol ','
  let label ← valueName
  symbol ']'
  return (value, label)

def phi : Reader Body := do
  keyword "phi"
  return .phi (← Reader.sepBy1 incoming (symbol ','))

def condBr : Reader Body := do
  keyword "br"
  let condition ← term
  symbol ','
  let thenLabel ← labelRef
  symbol ','
  let elseLabel ← labelRef
  return .condBr condition thenLabel elseLabel

def br : Reader Body := do
  keyword "br"
  return .br (← labelRef)

def switchCase : Reader (String × String) := do
  symbol '['
  let literal ← integer
  symbol ','
  let label ← labelRef
  symbol ']'
  return (literal, label)

def switch : Reader Body := do
  keyword "switch"
  let value ← term
  symbol ','
  let default ← labelRef
  let cases ← Reader.many switchCase
  return .switch value default cases

def call : Reader Body := do
  keyword "call"
  let callee ← globalName
  symbol '('
  let args ← terms
  symbol ')'
  return .call callee args

/-- Reads any other instruction. -/
def generic : Reader Body := do
  let opcode ← opcode
  let operands ← terms
  return .generic opcode operands

/-- Reads an instruction without its result. -/
def body : Reader Body := phi <|> condBr <|> br <|> switch <|> call <|> generic

/-- Reads a statement. A label starts the next section instead. -/
def statement : Reader Statement := do
  Reader.notAhead labelDef
  let result ← Reader.option (valueName <* symbol '=')
  let body ← body
  return ⟨result, body⟩

/-! ## Functions -/

def labelled : Reader Section := do
  let label ← labelDef
  let statements ← Reader.many statement
  return ⟨label, statements⟩

def definition : Reader Definition := do
  keyword "define"
  let name ← globalName
  symbol '('
  let params ← Reader.option (Reader.sepBy1 valueName (symbol ','))
  symbol ')'
  symbol '\x7b'
  let sections ← Reader.many labelled
  symbol '\x7d'
  return ⟨name, params.getD [], sections⟩

/-- The functions that a text defines, or nothing if it is not a program text. -/
def parse? (text : String) : Option (List Definition) :=
  Reader.run? (Reader.many definition <* token Reader.atEnd) text

end FlowFacts.Source
