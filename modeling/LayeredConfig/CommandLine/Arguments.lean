namespace LayeredConfig.CommandLine

/-- The options that every command on a workspace has. -/
structure WorkspaceOptions where
  workspace : String
  settings : Option String
  deriving DecidableEq, Repr, Inhabited

/-- What the program is asked to do. -/
inductive Command
  | resolve (root : Option String) (options : WorkspaceOptions) (evaluated noCache : Bool)
  | tree (root : Option String) (options : WorkspaceOptions)
  | sources (root : Option String) (options : WorkspaceOptions) (entity : Option String)
  | set (file path value : String) (ifAbsent : Bool)
  | clearCache (options : WorkspaceOptions)
  | help
  | version
  deriving DecidableEq, Repr, Inhabited

/-- What an option or a place among the other arguments takes. A path is not empty. -/
inductive Taken
  | nothing
  | text
  | path
  deriving DecidableEq, Repr

def Taken.accepts (taken : Taken) (value : String) : Bool :=
  match taken with
  | .path => value ≠ ""
  | _ => true

/-- An option of a command: its long name, perhaps a letter, and what it takes. -/
structure OptionForm where
  name : String
  letter : Option Char
  takes : Taken
  deriving DecidableEq, Repr

/-- The arguments that a command knows: options, and places for the others. -/
structure Form where
  options : List OptionForm
  places : List Taken

/-- The arguments of a command sorted: each option at most once, and the others in
their order. A question for help ends them. -/
structure Sorted where
  options : List (String × String)
  others : List String
  askedHelp : Bool

namespace Sorted

def empty : Sorted :=
  ⟨[], [], false⟩

def value? (s : Sorted) (name : String) : Option String :=
  s.options.lookup name

def has (s : Sorted) (name : String) : Bool :=
  (s.value? name).isSome

def withOption? (s : Sorted) (form : OptionForm) (value : String) : Option Sorted :=
  if s.has form.name || !form.takes.accepts value then none
  else some { s with options := s.options ++ [(form.name, value)] }

/-- Adds an argument that is no option at the next free place. -/
def withOther? (places : List Taken) (s : Sorted) (arg : String) : Option Sorted := do
  let place ← places[s.others.length]?
  if place.accepts arg then some { s with others := s.others ++ [arg] } else none

end Sorted

/-- An argument that looks like an option cannot be a value. -/
def looksLikeOption (arg : String) : Bool :=
  arg.toList.head? = some '-' && arg ≠ "-"

/-- Whether an argument asks for help; what adjoins the letter does not count. -/
def asksHelp (arg : String) : Bool :=
  arg = "--help" || ['-', 'h'].isPrefixOf arg.toList

/-- Whether an argument asks for the version; what adjoins the letter does not
count. -/
def asksVersion (arg : String) : Bool :=
  arg = "--version" || ['-', 'V'].isPrefixOf arg.toList

/-- How an argument names an option: the option, and the value that adjoins it. -/
def optionOf? (forms : List OptionForm) (arg : String) : Option (OptionForm × Option String) :=
  match arg.toList with
  | '-' :: '-' :: rest =>
    let name := String.ofList (rest.takeWhile (· ≠ '='))
    (forms.find? (·.name = name)).map fun form =>
      (form, match rest.dropWhile (· ≠ '=') with
        | [] => none
        | _ :: value => some (String.ofList value))
  | '-' :: letter :: rest =>
    (forms.find? (·.letter = some letter)).map fun form =>
      (form, match rest with
        | [] => none
        | '=' :: value => some (String.ofList value)
        | value => some (String.ofList value))
  | _ => none

/-- Sorts arguments. Behind two dashes no argument is an option. -/
def sortArguments (form : Form) (s : Sorted) : List String → Option Sorted
  | [] => some s
  | arg :: rest =>
    if arg = "--" then rest.foldlM (Sorted.withOther? form.places) s
    else if !looksLikeOption arg then (s.withOther? form.places arg).bind (sortArguments form · rest)
    else if asksHelp arg then some { s with askedHelp := true }
    else match optionOf? form.options arg with
      | none => none
      | some (option, adjoined) =>
        match option.takes, adjoined, rest with
        | .nothing, none, rest => (s.withOption? option "").bind (sortArguments form · rest)
        | .nothing, some _, _ => none
        | _, some value, rest => (s.withOption? option value).bind (sortArguments form · rest)
        | _, none, value :: rest =>
          if looksLikeOption value then none
          else (s.withOption? option value).bind (sortArguments form · rest)
        | _, none, [] => none

def workspaceForms : List OptionForm :=
  [⟨"workspace", some 'w', .path⟩, ⟨"settings", some 's', .path⟩]

def workspaceOptions (s : Sorted) : WorkspaceOptions :=
  ⟨(s.value? "workspace").getD ".", s.value? "settings"⟩

/-- Whether help can be given on what is named, the outermost name first. -/
def isTopic : List String → Bool
  | [] => true
  | [name] => ["resolve", "tree", "sources", "set", "cache", "help"].contains name
  | names => names = ["cache", "clear"] || names = ["cache", "help"]

/-- Reads the arguments behind the name of a command. -/
def Command.ofForm? (form : Form) (args : List String) (command : Sorted → Option Command) : Option Command := do
  let s ← sortArguments form .empty args
  if s.askedHelp then some .help else command s

def helpOn? (names : List String) : Option Command :=
  if isTopic names then some .help else none

/-- Reads the arguments of the program; none when they do not fit. -/
def Command.ofArguments? : List String → Option Command
  | "resolve" :: args =>
    ofForm? ⟨⟨"materialize", none, .nothing⟩ :: ⟨"no-cache", none, .nothing⟩ :: workspaceForms,
        [.path]⟩ args fun s =>
      some (.resolve s.others.head? (workspaceOptions s) (s.has "materialize") (s.has "no-cache"))
  | "tree" :: args =>
    ofForm? ⟨workspaceForms, [.path]⟩ args fun s => some (.tree s.others.head? (workspaceOptions s))
  | "sources" :: args =>
    ofForm? ⟨⟨"entity", some 'e', .text⟩ :: workspaceForms, [.path]⟩ args fun s =>
      some (.sources s.others.head? (workspaceOptions s) (s.value? "entity"))
  | "set" :: args =>
    ofForm? ⟨[⟨"if-absent", none, .nothing⟩], [.path, .text, .text]⟩ args fun s =>
      match s.others with
      | [file, path, value] => some (.set file path value (s.has "if-absent"))
      | _ => none
  | "cache" :: "clear" :: args =>
    ofForm? ⟨workspaceForms, []⟩ args fun s => some (.clearCache (workspaceOptions s))
  | "cache" :: "help" :: names => helpOn? ("cache" :: names)
  | "cache" :: arg :: _ => if asksHelp arg then some .help else none
  | "help" :: names => helpOn? names
  | arg :: _ =>
    if asksHelp arg then some .help
    else if asksVersion arg then some .version
    else none
  | [] => none

end LayeredConfig.CommandLine
