import DocModelLexer.Format
import DocModelLexer.Text.Quoted

namespace DocModelLexer

inductive Flag where
  | help
  | output
  | format
  | positions
  | config
  | bufferSize
  | watch
  | debug
  deriving DecidableEq, Repr, Inhabited

namespace Flag

def all : List Flag := [help, output, format, positions, config, bufferSize, watch, debug]

def names : Flag → List String
  | help => ["-h", "--help"]
  | output => ["-o", "--output"]
  | format => ["-f", "--format"]
  | positions => ["--positions"]
  | config => ["--config"]
  | bufferSize => ["--buffer-size"]
  | watch => ["--watch"]
  | debug => ["--debug"]

def takesValue : Flag → Bool
  | output | format | config | bufferSize => true
  | help | positions | watch | debug => false

def label (f : Flag) : String := "/".intercalate f.names

def ofName? (name : String) : Option Flag := all.find? (·.names.contains name)

def startingWith (text : String) : List (Flag × String) :=
  all.flatMap fun f =>
    (f.names.filter fun name => text.toList.isPrefixOf name.toList).map (f, ·)

end Flag

inductive UsageError where
  | ambiguous (word : String) (names : List String)
  | valueMissing (flag : Flag)
  | valueUnwanted (flag : Flag) (value : String)
  | notNumber (flag : Flag) (value : String)
  | notFormat (flag : Flag) (value : String)
  | inputMissing
  | unrecognized (words : List String)
  deriving DecidableEq, Repr, Inhabited

def UsageError.message : UsageError → String
  | ambiguous word names => s!"ambiguous option: {word} could match " ++ ", ".intercalate names
  | valueMissing flag => s!"argument {flag.label}: expected one argument"
  | valueUnwanted flag value =>
    s!"argument {flag.label}: ignored explicit argument {Text.quoted value}"
  | notNumber flag value => s!"argument {flag.label}: invalid int value: {Text.quoted value}"
  | notFormat flag value =>
    s!"argument {flag.label}: invalid choice: {Text.quoted value} (choose from " ++
      ", ".intercalate (Format.all.map (Text.quoted ·.name)) ++ ")"
  | inputMissing => "the following arguments are required: input"
  | unrecognized words => "unrecognized arguments: " ++ " ".intercalate words

def usageText : String :=
  "usage: dtdx [-h] [-o OUTPUT] [-f \x7btext,json\x7d] [--positions] [--config FILE]\n" ++
  "            [--buffer-size N] [--watch] [--debug]\n" ++
  "            input\n"

def helpText : String :=
  usageText ++
  "\n" ++
  "Tokenize a DTDX document model and print the token stream\n" ++
  "\n" ++
  "positional arguments:\n" ++
  "  input                 Input .dtdx file\n" ++
  "\n" ++
  "options:\n" ++
  "  -h, --help            show this help message and exit\n" ++
  "  -o OUTPUT, --output OUTPUT\n" ++
  "                        Output file (default: stdout)\n" ++
  "  -f \x7btext,json\x7d, --format \x7btext,json\x7d\n" ++
  "                        Output format (default: text)\n" ++
  "  --positions           Prefix each token with its line:column (text format)\n" ++
  "  --config FILE         Config file (default: auto-discover dtdx.toml)\n" ++
  "  --buffer-size N       Tokens the scanner may run ahead of the consumer\n" ++
  "                        (default: 2)\n" ++
  "  --watch               Watch for changes and re-tokenize\n" ++
  "  --debug               Log lexer activity to stderr\n"

def UsageError.report (e : UsageError) : String := usageText ++ s!"dtdx: error: {e.message}\n"

end DocModelLexer
