/-!
# Styled and aligned text

Control sequences for terminals, and padding to a width. Widths count characters.
-/

namespace FlowFacts

/-- Text attributes of a terminal. -/
inductive Style where
  | header
  | dimmed
  | yellow
  | title
  | rule
  | good
  | bad
  | alert
deriving DecidableEq

namespace Style

/-- The parameters of the control sequence that turns the style on. -/
def code : Style → String
  | header => "1;36"
  | dimmed => "2"
  | yellow => "33"
  | title => "1;96"
  | rule => "96"
  | good => "1;92"
  | bad => "1;91"
  | alert => "91"

/-- The control sequence that turns the style on. -/
def start (style : Style) : List Char := ("\x1b[" ++ style.code ++ "m").toList

/-- A text in which the style is turned on again after each sequence that resets it. -/
def resume (style : Style) : List Char → List Char
  | '\x1b' :: '[' :: '0' :: 'm' :: rest =>
    '\x1b' :: '[' :: '0' :: 'm' :: (style.start ++ style.resume rest)
  | c :: rest => c :: style.resume rest
  | [] => []

/-- A text in this style, if colours are on. -/
def paint (style : Style) (on : Bool) (s : String) : String :=
  if on then String.ofList (style.start ++ style.resume s.toList) ++ "\x1b[0m" else s

end Style

/-- A text filled up with blanks on the left. -/
def padLeft (width : Nat) (s : String) : String :=
  String.ofList (List.replicate (width - s.length) ' ') ++ s

/-- A text filled up with blanks on the right. -/
def padRight (width : Nat) (s : String) : String :=
  s ++ String.ofList (List.replicate (width - s.length) ' ')

end FlowFacts
