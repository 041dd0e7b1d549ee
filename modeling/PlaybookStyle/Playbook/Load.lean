/-
Reading the content of a playbook file.

Encrypted content is not looked into: it gives a playbook without blocks. Any
other content is a playbook or the cause of a failure that names the file.
-/

import PlaybookStyle.Playbook.Build
import PlaybookStyle.Finding.Failure

namespace PlaybookStyle.Playbook

open Text

/-- How the content of an encrypted file begins. -/
def encryptionHeader : String := "$ANSIBLE_VAULT;"

/-- The content begins with the header of an encrypted file, blanks left out. -/
def isEncryptedContent (content : String) : Bool :=
  encryptionHeader.toList.isPrefixOf (trimStart content.toList)

/-- The failure of a file that is no playbook. -/
def Problem.toFailure (path : String) : Problem → Failure
  | invalid e =>
    .unparsable path ("YAML syntax error: " ++ e.message) (e.place?.map Prod.fst)
      (e.place?.map Prod.snd)
  | shape p => .malformed path p.message p.line?

/-- The playbook in the content of a file. -/
def load (path content : String) : Except Failure Playbook :=
  if isEncryptedContent content then .ok (.ofEncrypted path)
  else
    match parse path content with
    | .ok playbook => .ok playbook
    | .error problem => .error (problem.toFailure path)

end PlaybookStyle.Playbook
