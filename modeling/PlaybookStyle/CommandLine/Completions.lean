/-
Completions: how a shell is told the commands and options of the program.
-/

import PlaybookStyle.CommandLine.Arguments

namespace PlaybookStyle.CommandLine

namespace Shell

/-- How to install completions in a shell. -/
def instructions : Shell → List String
  | bash =>
    ["# Bash completion installation:",
      "# Add the following to your ~/.bashrc:",
      "eval \"$(playstyle completions bash)\"",
      "",
      "# Or save to file:",
      "playstyle completions bash > ~/.local/share/bash-completion/completions/playstyle"]
  | zsh =>
    ["# Zsh completion installation:",
      "mkdir -p ~/.zsh/completions",
      "echo 'fpath=(~/.zsh/completions $fpath)' >> ~/.zshrc",
      "playstyle completions zsh > ~/.zsh/completions/_playstyle"]
  | fish =>
    ["# Fish completion installation:",
      "playstyle completions fish > ~/.config/fish/completions/playstyle.fish"]
  | powershell =>
    ["# PowerShell completion installation:",
      "# Add the following to your PowerShell profile:",
      "Invoke-Expression (& playstyle completions powershell | Out-String)"]
  | elvish =>
    ["# Elvish completion installation:",
      "# Add the following to ~/.elvish/rc.elv:",
      "eval (playstyle completions elvish | slurp)"]

/-- The words that complete an argument of the program. -/
def completions : List String :=
  commandNames ++ (programGrammar []).switches.map fun s => "--" ++ s.long

/-- A script that completes the first argument. -/
def script (shell : Shell) : List String :=
  let words := " ".intercalate completions
  match shell with
  | bash => [s!"complete -W '{words}' {program}"]
  | zsh => [s!"#compdef {program}", s!"compadd -- {words}"]
  | fish => [s!"complete -c {program} -f -a '{words}'"]
  | powershell =>
    ["Register-ArgumentCompleter -Native -CommandName " ++ program ++ " -ScriptBlock \x7b '" ++
      words ++ "' -split ' ' \x7d"]
  | elvish =>
    ["set edit:completion:arg-completer[" ++ program ++ "] = \x7b|@words| put " ++ words ++
      " \x7d"]

end Shell

end PlaybookStyle.CommandLine
