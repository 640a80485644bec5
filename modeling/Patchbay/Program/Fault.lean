import Patchbay.Token.Basic

/-! What can be wrong with the order of tokens. -/
namespace Patchbay

inductive Program.Fault where
  | nestedVoiceBlock
  | secondVoiceBlock
  | unopenedVoiceBlock
  | unclosedVoiceBlock
  | unreadable
  | unwritable
  | unexpectedExpression
  | nestedTooDeeply
  | unexpectedToken (kind : Token.Kind)
  | unexpectedEnd
  deriving Repr, DecidableEq

def Program.Fault.message : Program.Fault → String
  | nestedVoiceBlock => "Nested voice blocks are not allowed"
  | secondVoiceBlock => "Multiple voice blocks are not allowed"
  | unopenedVoiceBlock => "endvoice without matching startvoice"
  | unclosedVoiceBlock => "startvoice without matching endvoice"
  | unreadable => "Cannot be used as an output"
  | unwritable => "Cannot be used as an input"
  | unexpectedExpression => "Unexpected expression"
  | nestedTooDeeply => "Expression nested too deeply"
  | unexpectedToken kind => "Unexpected token: '" ++ kind.describe ++ "'"
  | unexpectedEnd => "Unexpected end of input"

def Program.Fault.report (f : Located Program.Fault) : Diagnostic :=
  ⟨.text, f.fault.message, f.span⟩

end Patchbay
