import Espalier.Command.Arguments

/-! # Texts for users -/

namespace Espalier

def versionText : String := "treegraft 0.1.0\n"

def Topic.usage : Topic → String
  | .general => "Usage: treegraft <COMMAND>\n"
  | .apply => "Usage: treegraft apply [OPTIONS] --rules <RULES> --tree <TREE>\n"
  | .check => "Usage: treegraft check --rules <RULES>\n"
  | .list => "Usage: treegraft list --rules <RULES>\n"

def Topic.about : Topic → String
  | .general => "Rule-based search and replace over typed trees\n"
  | .apply => "Apply rules to a tree\n"
  | .check => "Load and compile rule files, reporting every issue\n"
  | .list => "List rules with their modes and repetition limits\n"

def Topic.options : Topic → List String
  | .general => [
      "Commands:",
      "  apply  Apply rules to a tree",
      "  check  Load and compile rule files, reporting every issue",
      "  list   List rules with their modes and repetition limits",
      "  help   Print this message or the help of the given subcommand(s)",
      "",
      "Options:",
      "  -h, --help     Print help",
      "  -V, --version  Print version"]
  | .apply => [
      "Options:",
      "  -r, --rules <RULES>    Rule file, or a directory of .toml rule files " ++
        "applied in name order",
      "  -t, --tree <TREE>      Subject tree as JSON",
      "  -o, --output <OUTPUT>  Where to write the rewritten tree (JSON)",
      "  -n, --dry-run          Dry run - report hits without writing the output",
      "  -d, --diff             Show unified diff of the tree per rule file",
      "  -h, --help             Print help"]
  | .check | .list => [
      "Options:",
      "  -r, --rules <RULES>  ",
      "  -h, --help           Print help"]

def Topic.help (topic : Topic) : String :=
  topic.about ++ "\n" ++ topic.usage ++ "\n" ++ String.join (topic.options.map (· ++ "\n"))

end Espalier
