/-
The rules that are always there.
-/

import PlaybookStyle.Rule.Arguments
import PlaybookStyle.Rule.Colon
import PlaybookStyle.Rule.FileName
import PlaybookStyle.Rule.Identifier
import PlaybookStyle.Rule.Indentation
import PlaybookStyle.Rule.Order
import PlaybookStyle.Rule.Privilege
import PlaybookStyle.Rule.Separation
import PlaybookStyle.Rule.Template
import PlaybookStyle.Rule.Value

namespace PlaybookStyle.Rule

/-- The built-in rules in the order in which they meet a part. -/
def builtin : List Rule :=
  [quoteStyle, booleanLiteral, keySpacing, mapSyntax, sudoBecome, hostBlockOrder, taskFieldOrder,
    includeQuoting, includeSpacing, blockSpacing, indentation, variableNaming, roleNaming,
    jinjaSpacing, fileExtension, vaultFileExtension]

end PlaybookStyle.Rule
