import OklchGate.CommandLine.Arguments

/-!
# Help texts

The banner that is shown when there is nothing to do, and the help for the
program and for each command, eighty columns wide.
-/

namespace OklchGate.CommandLine

/-- The text of some lines, each ended by a line feed. -/
def linesText (lines : List String) : Text :=
  lines.flatMap fun line => line.toList ++ ['\n']

/-- The banner for a command line without a command or without paths. -/
def banner : Text :=
  linesText
    ["Usage: oklchify convert <file> [file2 ...]",
     "Converts hex colors to oklch() with @supports fallback",
     "",
     "Supported formats:",
     "  - CSS files (.css)",
     "  - TypeScript/JavaScript (.ts, .tsx, .js, .jsx)",
     "    Looks for objects with hex color string values"]

/-- The help for the program. -/
def mainHelp : Text :=
  linesText
    ["usage: oklchify [-h] \x7bconvert,scan\x7d ...",
     "",
     "Add oklch() equivalents of hex colours behind @supports fallbacks",
     "",
     "positional arguments:",
     "  \x7bconvert,scan\x7d",
     "    convert       Rewrite files in place with @supports oklch() blocks",
     "    scan          List hex colours and their oklch() equivalents",
     "",
     "options:",
     "  -h, --help      show this help message and exit"]

/-- The help for a command. -/
def Command.help : Command → Text
  | convert =>
    linesText
      ["usage: oklchify convert [-h] [--dry-run] [--backup] [--config CONFIG] [-v]",
       "                        [paths ...]", "", "positional arguments:",
       "  paths            Files or directories to convert", "", "options:",
       "  -h, --help       show this help message and exit",
       "  --dry-run        Report what would change without writing any files",
       "  --backup         Write <file>.bak before overwriting a file",
       "  --config CONFIG  JSON config file (or set OKLCHIFY_CONFIG)",
       "  -v, --verbose    Debug logging"]
  | scan =>
    linesText
      ["usage: oklchify scan [-h] [--config CONFIG] [-v] [paths ...]",
       "",
       "positional arguments:",
       "  paths            Files or directories to scan",
       "",
       "options:",
       "  -h, --help       show this help message and exit",
       "  --config CONFIG  JSON config file (or set OKLCHIFY_CONFIG)",
       "  -v, --verbose    Debug logging"]

end OklchGate.CommandLine
