/-! # Identifiers

Names of types and fields: an ASCII letter or an underscore, then letters, digits and
underscores.
-/
namespace Savefile.Text

/-- A letter or an underscore. -/
def isIdentStart (c : Char) : Bool := c.isAlpha || c == '_'

/-- A letter, a digit or an underscore. -/
def isIdentRest (c : Char) : Bool := c.isAlphanum || c == '_'

/-- Whether the characters make up an identifier. -/
def isIdentifierChars : List Char → Bool
  | [] => false
  | c :: cs => isIdentStart c && cs.all isIdentRest

def isIdentifier (s : String) : Bool := isIdentifierChars s.toList

end Savefile.Text
