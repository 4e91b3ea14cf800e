import StepLinker.Text.Lines

/-!
# Version and help

What the program says about itself.
-/

namespace StepLinker

namespace Help

def version : String :=
  Text.terminateLines ["autostep-link 0.5.0"]

def head : List String :=
  ["Link Gherkin feature files against declared step definitions",
    "",
    "Usage: autostep-link [OPTIONS] <FEATURE>...",
    "",
    "Arguments:"]

def brief : List String :=
  ["  <FEATURE>...  Feature files to link",
    "",
    "Options:",
    "  -s, --steps <MANIFEST>        Step manifest to register; may be repeated",
    "      --format <FORMAT>         " ++
      "Report format [default: text] [possible values: text, json]",
    "      --log-level <LOG_LEVEL>   Log level (trace, debug, info, warn, error)",
    "      --no-whitespace-warnings  Do not warn about whitespace inside quoted arguments",
    "  -h, --help                    Print help (see more with '--help')",
    "  -V, --version                 Print version"]

def detailed : List String :=
  ["  <FEATURE>...",
    "          Feature files to link",
    "",
    "Options:",
    "  -s, --steps <MANIFEST>",
    "          Step manifest to register; may be repeated",
    "",
    "      --format <FORMAT>",
    "          Report format",
    "",
    "          Possible values:",
    "          - text: One line per diagnostic, followed by a per-file summary",
    "          - json: A single JSON document",
    "          ",
    "          [default: text]",
    "",
    "      --log-level <LOG_LEVEL>",
    "          Log level (trace, debug, info, warn, error)",
    "",
    "      --no-whitespace-warnings",
    "          Do not warn about whitespace inside quoted arguments",
    "",
    "  -h, --help",
    "          Print help (see a summary with '-h')",
    "",
    "  -V, --version",
    "          Print version"]

def text (long : Bool) : String :=
  Text.terminateLines (head ++ if long then detailed else brief)

end Help

end StepLinker
