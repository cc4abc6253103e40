/-!
# Options of the command line

What a run is asked for.  A report is a function of these options, and what is said of reports is
said of all of them, however they were read.

`Options.ofArguments` reads them for the program.  It only stands in for an argument parser, of
which nothing is claimed here: flags may stand before, between and after the files, short flags may
share a hyphen, an option may take its value after an equals sign or as the next argument, and
everything after `--` is the name of a file.
-/

namespace Grading

/-- What a command line asks for, less how much is to be logged. -/
structure Options where
  graph : String
  points : Option String
  /-- Show what can be computed instead of asking for all points: `--preview`. -/
  preview : Bool
  /-- Refuse models with warnings: `--strict`. -/
  strict : Bool
  /-- Names of node types, each as `name=type`: one for each `--type-mapping`. -/
  mappings : List String

/-- Why arguments cannot be understood. -/
inductive UsageError where
  | unknownOption (argument : String)
  | repeatedOption (argument : String)
  | missingValue (argument : String)
  | missingGraph
  | surplusFile (argument : String)
deriving DecidableEq

namespace UsageError

def message : UsageError → String
  | unknownOption argument => s!"unexpected argument '{argument}' found"
  | repeatedOption argument => s!"the argument '{argument}' cannot be used multiple times"
  | missingValue argument => s!"a value is required for '{argument}' but none was supplied"
  | missingGraph => "the following required arguments were not provided: <GRAPH_PATH>"
  | surplusFile argument => s!"unexpected argument '{argument}' found"

end UsageError

namespace Options

/-! ## Reading arguments -/

/-- A command line read so far. -/
structure Scan where
  files : List String := []
  preview : Bool := false
  strict : Bool := false
  mappings : List String := []

def Scan.setPreview (s : Scan) : Except UsageError Scan :=
  if s.preview then .error (.repeatedOption "--preview") else .ok { s with preview := true }

def Scan.setStrict (s : Scan) : Except UsageError Scan :=
  if s.strict then .error (.repeatedOption "--strict") else .ok { s with strict := true }

def Scan.addMapping (s : Scan) (mapping : String) : Scan :=
  { s with mappings := s.mappings ++ [mapping] }

/-- A file has to be one of at most two. -/
def Scan.addFile (s : Scan) (file : String) : Except UsageError Scan :=
  if s.files.length < 2 then .ok { s with files := s.files ++ [file] }
  else .error (.surplusFile file)

/-- Short flags behind one hyphen; how often `v` is given makes no difference to a report. -/
def Scan.shortFlags (s : Scan) : List Char → Except UsageError Scan
  | [] => .ok s
  | 'p' :: rest => do (← s.setPreview).shortFlags rest
  | 'v' :: rest => s.shortFlags rest
  | c :: _ => .error (.unknownOption (String.ofList ['-', c]))

/-- Does an argument look like an option?  A hyphen alone does not. -/
def looksLikeOption (argument : String) : Bool :=
  match argument.toList with
  | '-' :: _ :: _ => true
  | _ => false

/-- The value of a mapping that is written behind an equals sign. -/
def attachedMapping? (argument : String) : Option String :=
  ("--type-mapping=".toList.isPrefixOf? argument.toList).map String.ofList

/-- One argument that is complete by itself. -/
def Scan.argument (s : Scan) (argument : String) : Except UsageError Scan :=
  if argument = "--preview" then s.setPreview
  else if argument = "--strict" then s.setStrict
  else if argument = "--verbose" then .ok s
  else
    match attachedMapping? argument, argument.toList with
    | some mapping, _ => .ok (s.addMapping mapping)
    | none, '-' :: '-' :: _ => .error (.unknownOption argument)
    | none, '-' :: c :: rest => s.shortFlags (c :: rest)
    | none, _ => s.addFile argument

/-- Reads arguments from left to right. -/
def Scan.arguments (s : Scan) : List String → Except UsageError Scan
  | [] => .ok s
  | "--" :: files => files.foldlM Scan.addFile s
  | "--type-mapping" :: mapping :: rest =>
    if looksLikeOption mapping then .error (.missingValue "--type-mapping")
    else (s.addMapping mapping).arguments rest
  | ["--type-mapping"] => .error (.missingValue "--type-mapping")
  | argument :: rest => do (← s.argument argument).arguments rest

/-- The options that arguments ask for. -/
def ofArguments (arguments : List String) : Except UsageError Options := do
  let s ← ({} : Scan).arguments arguments
  match s.files with
  | [] => .error .missingGraph
  | graph :: points =>
    return { graph, points := points.head?, preview := s.preview, strict := s.strict,
             mappings := s.mappings }

end Options

end Grading
