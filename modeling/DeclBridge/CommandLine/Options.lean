import DeclBridge.Ruleset.Basic

/-!
The arguments of the program. An option takes its value from behind an equals sign or from the next
argument, and nothing is given twice. Values are checked when the next option comes or the arguments
end, so a fault in what was given before comes first.
-/

namespace DeclBridge

/-- What the arguments ask for when they ask for a run. -/
structure Options where
  paths : List String
  preset : Option Preset
  config : Option String
  output : Option String
  prelude : Bool
deriving DecidableEq, Repr

/-- What the arguments ask for. -/
inductive Command where
  | run (options : Options)
  | help
  | version
  | invalid
deriving DecidableEq, Repr

namespace Options

/-- What no arguments ask for. -/
def empty : Options := ⟨[], none, none, none, false⟩

/-- What values are given to. -/
inductive Slot where
  | paths
  | preset
  | config
  | output
deriving DecidableEq, Repr

/-- Values that are read but not checked, and what they are given to. -/
abbrev Pending := Option (Slot × List String)

def presetOfName? (name : String) : Option Preset :=
  if name = "current" then some .current else if name = "legacy" then some .legacy else none

/-- The options with values that are checked now. A path has a name, and an option has one value and
is not given yet. -/
def settle (o : Options) : Pending → Option Options
  | none => some o
  | some (.paths, values) =>
      if values.contains "" then none else some { o with paths := o.paths ++ values }
  | some (.preset, [value]) =>
      if o.preset.isSome then none
      else (presetOfName? value).map fun preset => { o with preset := some preset }
  | some (.config, [value]) =>
      if o.config.isSome ∨ value = "" then none else some { o with config := some value }
  | some (.output, [value]) =>
      if o.output.isSome ∨ value = "" then none else some { o with output := some value }
  | some (_, _) => none

/-- What one argument is. -/
inductive Argument where
  | option (slot : Slot) (value : Option String)
  | prelude
  | help
  | version
  | unknown
  | value
deriving DecidableEq, Repr

/-- The option of a long name, and what stands behind an equals sign. -/
def longArgument (name : String) (value : Option String) : Argument :=
  match name, value with
  | "ruleset", value => .option .preset value
  | "config", value => .option .config value
  | "output", value => .option .output value
  | "prelude", none => .prelude
  | "help", none => .help
  | "version", none => .version
  | _, _ => .unknown

/-- The option of a letter, and what stands directly behind it, if anything does. -/
def shortArgument (letter : Char) (rest : List Char) : Argument :=
  let value := match rest with
    | [] => none
    | '=' :: rest => some (String.ofList rest)
    | rest => some (String.ofList rest)
  match letter with
  | 'c' => .option .config value
  | 'o' => .option .output value
  | 'h' => .help
  | 'V' => .version
  | _ => .unknown

/-- What an argument is. A dash alone is a value. -/
def argument (text : String) : Argument :=
  match text.toList with
  | '-' :: '-' :: rest =>
      let name := rest.takeWhile (· != '=')
      longArgument (String.ofList name)
        ((rest.dropWhile (· != '=')).tail?.map String.ofList)
  | '-' :: letter :: rest => shortArgument letter rest
  | _ => .value

/-- What options ask for when only paths follow them. -/
def finish (o : Options) (pending : Pending) (paths : List String) : Command :=
  let settled := match pending, paths with
    | pending, [] => o.settle pending
    | some (.paths, values), paths => o.settle (some (.paths, values ++ paths))
    | pending, paths => o.settle pending >>= fun o => o.settle (some (.paths, paths))
  match settled with
  | some o => .run o
  | none => .invalid

/-- What arguments ask for behind options and values that are read. Behind two dashes all arguments
are paths. -/
def parseFrom (o : Options) (pending : Pending) : List String → Command
  | [] => o.finish pending []
  | arg :: args =>
      if arg = "--" then o.finish pending args
      else
        match argument arg, pending with
        | .unknown, _ => .invalid
        | .value, some (.paths, values) => parseFrom o (some (.paths, values ++ [arg])) args
        | .value, some (slot, []) => parseFrom o (some (slot, [arg])) args
        | what, pending =>
            -- What was given before is checked first.
            match o.settle pending with
            | none => .invalid
            | some o =>
                match what with
                | .value => parseFrom o (some (.paths, [arg])) args
                | .option slot none => parseFrom o (some (slot, [])) args
                | .option slot (some value) =>
                    match o.settle (some (slot, [value])) with
                    | some o => parseFrom o none args
                    | none => .invalid
                | .prelude =>
                    if o.prelude then .invalid
                    else parseFrom { o with prelude := true } none args
                | .help => .help
                | .version => .version
                | .unknown => .invalid

def parse (args : List String) : Command :=
  parseFrom empty none args

end Options

end DeclBridge
