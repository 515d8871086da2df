/-!
# Help

What the program says about itself.
-/

namespace RoundingPatch.CommandLine

/-- The lines of the help text. -/
def helpLines : List String := [
  "digitfix: DigitList HALF_UP rounding patch and self test",
  "",
  "USAGE:",
  "    digitfix <COMMAND> [OPTIONS]",
  "",
  "COMMANDS:",
  "    selftest              Run the rounding battery against a DigitList class",
  "    patch                 Rewrite a DigitList class file offline",
  "    specimen              Write a built-in class file",
  "",
  "SELFTEST OPTIONS:",
  "    --target <PATH>       Class file to test",
  "    --specimen <KIND>     Built-in class to test: affected (default) or fixed",
  "    --agent               Install the patch before the class is defined",
  "    --agent-args <ARGS>   Agent arguments such as template=PATH,config=PATH",
  "                          (implies --agent)",
  "    --template <PATH>     Compiled template class (implies --agent)",
  "    --config <PATH>       TOML file with [patch] and [harness] tables",
  "    --print-actuals       Report the exact binary value of every input",
  "    --json                Emit the report as JSON",
  "",
  "PATCH OPTIONS:",
  "    --input <PATH>        Class file to rewrite",
  "    --output <PATH>       Destination, written only when the class changes",
  "    --template <PATH>     Compiled template class",
  "    --config <PATH>       TOML file with a [patch] table",
  "    --json                Emit the transform report as JSON",
  "",
  "SPECIMEN OPTIONS:",
  "    --kind <KIND>         affected, fixed or template",
  "    --output <PATH>       Destination class file",
  "",
  "GLOBAL OPTIONS:",
  "    --log <FILTER>        tracing filter when RUST_LOG is unset (default: warn)",
  "    -h, --help            Show this help",
  ""]

/-- The help text. -/
def help : String :=
  String.join (helpLines.map (· ++ "\n"))

end RoundingPatch.CommandLine
