/-
Extensions of file names.

Encrypted files have the extension `vault`, other YAML files an accepted one.
The rules look at the file itself and at the files it names; whether a named
file is encrypted is told by its name.
-/

import PlaybookStyle.Rule.Basic

namespace PlaybookStyle.Rule

open Playbook Text

def vaultExtension : String := "vault"

/-- The file name holds a mark of encrypted files, letters compared in any case. -/
def isVaultName (markers : List String) (path : String) : Bool :=
  let name := lower ((Path.fileName? path).getD path)
  markers.any fun marker => !marker.isEmpty && contains name (lower marker)

/-- The file that a scalar names, unless its name holds an expression. -/
def namedFile? (s : Scalar) : Option Scalar :=
  if (s.context = .includeTarget || s.context = .fileReference) && !s.isTemplated then some s
  else none

/-! ### Other YAML files -/

/-- A YAML extension, in any case, is one of the accepted. -/
def extensionRemark? (policy : ExtensionPolicy) (path : String) (position : Position) :
    Option Remark :=
  match Path.extension? path with
  | none => none
  | some extension =>
    if lower extension ∈ ["yml", "yaml"] && !policy.allowed.contains extension then
      some ⟨position, s!"File '{path}' should use the '.{policy.preferred}' extension",
        some (Path.withExtension path policy.preferred)⟩
    else none

def fileExtension : Rule where
  id := "file-extension"
  description := "YAML files use the lowercase .yml extension"
  category := .naming
  severity := .error
  kinds := [.document, .scalar]
  remarks conventions visit :=
    match visit.part with
    | .document p =>
      if p.encrypted then [] else (extensionRemark? conventions.extensions p.path .start).toList
    | .scalar s =>
      match namedFile? s with
      | some file =>
        if isVaultName conventions.vaultMarkers file.text then []
        else (extensionRemark? conventions.extensions file.text file.position).toList
      | none => []
    | _ => []

/-! ### Encrypted files -/

def vaultRemark? (path : String) (position : Position) : Option Remark :=
  if Path.extension? path = some vaultExtension then none
  else
    some ⟨position,
      s!"Vault-encrypted file '{path}' should use the '.{vaultExtension}' extension",
      some (Path.withExtension path vaultExtension)⟩

def vaultFileExtension : Rule where
  id := "vault-extension"
  description := "Vault-encrypted files use the .vault extension"
  category := .naming
  severity := .error
  kinds := [.document, .scalar]
  remarks conventions visit :=
    match visit.part with
    | .document p => if p.encrypted then (vaultRemark? p.path .start).toList else []
    | .scalar s =>
      match namedFile? s with
      | some file =>
        if isVaultName conventions.vaultMarkers file.text then
          (vaultRemark? file.text file.position).toList
        else []
      | none => []
    | _ => []

end PlaybookStyle.Rule
