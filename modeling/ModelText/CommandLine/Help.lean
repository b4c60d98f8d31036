import ModelText.CommandLine.Arguments

/-!
# Help

What the program says about itself and its commands. Every topic has the same parts: a sentence on
what it is about, a line on how it is called, and tables of what may be given. In a table the
explanations stand in one column.
-/

namespace ModelText.CommandLine

namespace Topic

/-- What a topic is about. -/
def about : Topic → String
  | .program => "Convert entities to and from model text"
  | .command .serialize => "Write entity JSON files as model text"
  | .command .deserialize => "Print the entities in a model text file as JSON"
  | .command .check => "Report whether each entity survives a round trip"
  | .help => "Print this message or the help of the given subcommand(s)"

/-- What has to follow the name of the program. -/
def usage : Topic → String
  | .program => "[OPTIONS] <COMMAND>"
  | .command .serialize => "serialize [OPTIONS] <ENTITIES>..."
  | .command .deserialize => "deserialize [OPTIONS] <FILE>"
  | .command .check => "check [OPTIONS] <ENTITIES>..."
  | .help => "help [COMMAND]..."

end Topic

/-- A titled table: what may be given, and what it means. -/
structure HelpTable where
  title : String
  rows : List (String × String)

namespace HelpTable

/-- The width of the first column. -/
def width (table : HelpTable) : Nat :=
  (table.rows.map (·.1.length)).foldl max 0

/-- A row of a table. -/
def rowText (width : Nat) (name about : String) : String :=
  "  " ++ name ++ String.ofList (List.replicate (width - name.length) ' ') ++ "  " ++ about ++ "\n"

/-- The table, after an empty line. -/
def text (table : HelpTable) : String :=
  "\n" ++ table.title ++ ":\n" ++
    String.join (table.rows.map fun (name, about) => rowText table.width name about)

end HelpTable

namespace Topic

/-- The commands. -/
def commandTable : HelpTable :=
  ⟨"Commands", [
    ("serialize", about (.command .serialize)),
    ("deserialize", about (.command .deserialize)),
    ("check", about (.command .check)),
    ("help", about .help)]⟩

/-- The options, with those that only one command has. -/
def optionTable (own : List (String × String)) : HelpTable :=
  ⟨"Options",
    ("-c, --config <CONFIG>", "Codec config file (TOML)") :: own ++ [
    ("-v, --verbose", "Enable verbose debug logging"),
    ("-h, --help", "Print help")]⟩

/-- The tables of a topic. -/
def tables : Topic → List HelpTable
  | .program => [commandTable, optionTable []]
  | .command .deserialize =>
    [⟨"Arguments", [("<FILE>", "")]⟩,
      optionTable [("-m, --many", "Accept any number of entities and print a JSON array")]]
  | .command _ => [⟨"Arguments", [("<ENTITIES>...", "")]⟩, optionTable []]
  | .help => [⟨"Arguments", [("[COMMAND]...", "Print help for the subcommand(s)")]⟩]

/-- The help on a topic, in a program of the given name. -/
def text (program : String) (topic : Topic) : String :=
  topic.about ++ "\n\nUsage: " ++ program ++ " " ++ topic.usage ++ "\n" ++
    String.join (topic.tables.map HelpTable.text)

end Topic

end ModelText.CommandLine
