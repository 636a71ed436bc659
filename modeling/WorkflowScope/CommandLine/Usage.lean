import WorkflowScope.CommandLine.Arguments

/-!
# Help
-/

namespace WorkflowScope.CommandLine

def programName : String := "workflowlens"

def versionLine : String := programName ++ " 0.1.0\n"

/-- An entry of a table in a help text: what can be written, and what it means. -/
structure HelpEntry where
  form : String
  meaning : String
  deriving DecidableEq, Repr, Inhabited

/-- A table under a heading, with the meanings in one column. -/
def helpTable (heading : String) (entries : List HelpEntry) : String :=
  let width := (entries.map (·.form.length)).foldl max 0
  let line (entry : HelpEntry) : String :=
    "  " ++ entry.form ++ String.ofList (List.replicate (width - entry.form.length) ' ') ++ "  " ++
      entry.meaning ++ "\n"
  heading ++ ":\n" ++ String.join (entries.map line)

def Verb.purpose : Verb → String
  | locate => "Print the key-path of the element at a position"
  | collect => "Print every value whose key-path matches a pattern"
  | ranges => "Print the runnable command lines of matching values"
  | check => "Report YAML syntax problems"

def Verb.values : Verb → List HelpEntry
  | locate =>
      [⟨"<FILE>", "Workflow file (`-` for stdin)"⟩, ⟨"<LINE>", "Line number, starting at 1"⟩,
       ⟨"<COLUMN>", "Column number, starting at 1"⟩]
  | _ => [⟨"<FILE>", "Workflow file (`-` for stdin)"⟩]

def helpOption : HelpEntry :=
  ⟨"-h, --help", "Print help"⟩

def Verb.options (verb : Verb) : List HelpEntry :=
  (if verb.takesPattern then
    [⟨"-p, --pattern <PATTERN>", "Key-path pattern (default: enable_path from the config)"⟩]
   else []) ++
  if verb.takesJson then [⟨"    --json", "Print JSON instead of text"⟩] else []

def helpPurpose : String := "Print this message or the help of the given subcommand(s)"

def helpText : Topic → String
  | .program =>
      "Key-path queries and command ranges for GitHub Actions workflows\n\n" ++
        "Usage: " ++ programName ++ " <COMMAND>\n\n" ++
        helpTable "Commands" (Verb.all.map (fun verb => ⟨verb.name, verb.purpose⟩) ++
          [⟨"help", helpPurpose⟩]) ++ "\n" ++
        helpTable "Options" [helpOption, ⟨"-V, --version", "Print version"⟩]
  | .verb verb =>
      let values := verb.values.map (" " ++ ·.form)
      verb.purpose ++ "\n\n" ++
        "Usage: " ++ programName ++ " " ++ verb.name ++
        (if verb.options.isEmpty then "" else " [OPTIONS]") ++ String.join values ++ "\n\n" ++
        helpTable "Arguments" verb.values ++ "\n" ++
        helpTable "Options" (verb.options ++ [helpOption])
  | .help =>
      helpPurpose ++ "\n\n" ++ "Usage: " ++ programName ++ " help [COMMAND]...\n\n" ++
        helpTable "Arguments" [⟨"[COMMAND]...", "Print help for the subcommand(s)"⟩]

end WorkflowScope.CommandLine
