import Patchbay.Decimal.Text
import Patchbay.Diagnostic

/-! The words of a patch text. -/
namespace Patchbay

inductive Keyword where
  | new
  | bi
  | startVoice
  | endVoice
  deriving Repr, DecidableEq

inductive Operator where
  | plus
  | minus
  | star
  | assign
  | arrow
  | backArrow
  deriving Repr, DecidableEq

inductive Mark where
  | openParen
  | closeParen
  | openBracket
  | closeBracket
  | comma
  | dot
  | colon
  deriving Repr, DecidableEq

def Keyword.text : Keyword → String
  | new => "new"
  | bi => "bi"
  | startVoice => "startvoice"
  | endVoice => "endvoice"

/-- The keyword a word stands for. All other words are names. -/
def Keyword.ofWord? : String → Option Keyword
  | "new" => some .new
  | "bi" => some .bi
  | "startvoice" => some .startVoice
  | "endvoice" => some .endVoice
  | _ => none

def Operator.text : Operator → String
  | plus => "+"
  | minus => "-"
  | star => "*"
  | assign => "="
  | arrow => "=>"
  | backArrow => "<="

def Mark.char : Mark → Char
  | openParen => '('
  | closeParen => ')'
  | openBracket => '['
  | closeBracket => ']'
  | comma => ','
  | dot => '.'
  | colon => ':'

def Mark.ofChar? : Char → Option Mark
  | '(' => some .openParen
  | ')' => some .closeParen
  | '[' => some .openBracket
  | ']' => some .closeBracket
  | ',' => some .comma
  | '.' => some .dot
  | ':' => some .colon
  | _ => none

/-- What a token says. The unit of a number is empty when none is written. -/
inductive Token.Kind where
  | keyword (k : Keyword)
  | operator (o : Operator)
  | mark (m : Mark)
  | name (text : String)
  | number (value : Float) (unit : String)
  deriving Repr, DecidableEq

/-- A token and the characters it was read from. -/
structure Token where
  kind : Token.Kind
  span : Span
  deriving Repr, DecidableEq

/-- The token as messages show it. Reading this text gives the token back as long as its number
is finite. -/
def Token.Kind.describe : Token.Kind → String
  | keyword k => k.text
  | operator o => o.text
  | mark m => String.singleton m.char
  | name text => text
  | number value unit => Decimal.literalText value ++ unit

end Patchbay
