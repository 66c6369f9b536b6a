import LadderLogic.Text.Hex
import LadderLogic.Text.Printable

/-!
# Quoted text

The form in which a message shows a text: between quotes, with every code point that does not print
written as an escape. The quote is `'`, or `"` if the text holds a `'` and no `"`.

Source: the texts in the messages of section 7 of the specification.
-/

namespace LadderLogic
namespace Text

/-- A code point between two `quote`s. -/
def escaped (quote : Char) (c : CodePoint) : Text :=
  if c = quote || c = '\\' then ['\\', c]
  else if c = '\t' then ['\\', 't']
  else if c = '\n' then ['\\', 'n']
  else if c = '\r' then ['\\', 'r']
  else if isPrintable c then [c]
  else if c.toNat < 0x100 then '\\' :: 'x' :: hexDigits 2 c.toNat
  else if c.toNat < 0x10000 then '\\' :: 'u' :: hexDigits 4 c.toNat
  else '\\' :: 'U' :: hexDigits 8 c.toNat

/-- The quote that a text is put between. -/
def quoteFor (text : Text) : Char :=
  if text.contains (.char '\'') && !text.contains (.char '"') then '"' else '\''

/-- A text between quotes. -/
def quoted (text : Text) : Text :=
  let quote := quoteFor text
  quote :: (text.flatMap (escaped quote) ++ [.char quote])

end Text
end LadderLogic
