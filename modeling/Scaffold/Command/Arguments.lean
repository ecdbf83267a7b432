import Scaffold.Disk.Path

/-!
# Command-line arguments

The options of the command. A long option takes its value from the next argument or from behind an
equals sign, and the short one also from the rest of its argument; short flags can share an
argument. No option can be given twice, and nothing but options can be given. The first argument
that breaks a rule decides, and a request for help or for the version counts from where it stands.
-/

namespace Scaffold.Command

open Text

/-- What a run is asked to do. -/
structure Options where
  root : Option Path := none
  config : Option Path := none
  log : Option Text := none
  dryRun : Bool := false
  dumpModel : Bool := false
  deriving DecidableEq, Repr, Inhabited

/-- An option with a value. -/
inductive Setter where
  | root
  | config
  | log
  deriving DecidableEq, Repr

/-- An option without a value. -/
inductive Flag where
  | dryRun
  | dumpModel
  | help
  | version
  deriving DecidableEq, Repr

/-- Why arguments are refused. -/
inductive UsageError where
  | unexpected (argument : Text)
  | missingValue (option : Setter)
  | surplusValue (argument : Text)
  | repeated (argument : Text)
  | conflict
  deriving DecidableEq, Repr

/-- Where reading arguments ends early. -/
inductive Exit where
  | help
  | version
  | refused (e : UsageError)
  deriving DecidableEq, Repr

/-- The name of an option. -/
def Setter.name : Setter → Text
  | root => "root".toList
  | config => "config".toList
  | log => "log".toList

/-- The name of a flag. -/
def Flag.name : Flag → Text
  | dryRun => "dry-run".toList
  | dumpModel => "dump-model".toList
  | help => "help".toList
  | version => "version".toList

/-- An option of either sort. -/
inductive Switch where
  | setter (s : Setter)
  | flag (f : Flag)
  deriving DecidableEq, Repr

/-- The option of a long name. -/
def longOption? (name : Text) : Option Switch :=
  let setters := [Setter.root, .config, .log].map fun s => (s.name, Switch.setter s)
  let flags := [Flag.dryRun, .dumpModel, .help, .version].map fun f => (f.name, Switch.flag f)
  (setters ++ flags).lookup name

/-- The option of a short name. -/
def shortOption? : Char → Option Switch
  | 'c' => some (.setter .config)
  | 'h' => some (.flag .help)
  | 'V' => some (.flag .version)
  | _ => none

/-- Gives an option its value. A path must not be empty. -/
def assign (o : Options) (s : Setter) (value : Text) : Except Exit Options :=
  let again := Except.error (.refused (.repeated s.name))
  let empty := Except.error (.refused (.missingValue s))
  match s with
  | .root =>
    if o.root.isSome then again else if value = [] then empty else .ok { o with root := some ⟨value⟩ }
  | .config =>
    if o.config.isSome then again
    else if value = [] then empty else .ok { o with config := some ⟨value⟩ }
  | .log => if o.log.isSome then again else .ok { o with log := some value }

/-- Sets a flag. -/
def raise (o : Options) : Flag → Except Exit Options
  | .dryRun =>
    if o.dryRun then .error (.refused (.repeated Flag.dryRun.name)) else .ok { o with dryRun := true }
  | .dumpModel =>
    if o.dumpModel then .error (.refused (.repeated Flag.dumpModel.name))
    else .ok { o with dumpModel := true }
  | .help => .error .help
  | .version => .error .version

/-- An argument as it looks. -/
inductive Shape where
  /-- Two dashes alone: no options follow. -/
  | endMark
  | long (name : Text) (value : Option Text)
  | short (letters : Text)
  /-- No option: a value, if the option before it waits for one. -/
  | plain (value : Text)
  deriving DecidableEq, Repr

/-- The shape of an argument. -/
def shape : Text → Shape
  | ['-', '-'] => .endMark
  | '-' :: '-' :: rest =>
    match cutAt? ['='] rest with
    | some (name, value) => .long name (some value)
    | none => .long rest none
  | '-' :: c :: rest => .short (c :: rest)
  | value => .plain value

/-- Reads the letters of a short argument. An option that waits for its value comes with the
options. -/
def readLetters (argument : Text) : Options → Text → Except Exit (Options × Option Setter)
  | o, [] => .ok (o, none)
  | o, c :: rest =>
    match shortOption? c with
    | none => .error (.refused (.unexpected argument))
    | some (.flag f) => do readLetters argument (← raise o f) rest
    | some (.setter s) =>
      match rest with
      | [] => .ok (o, some s)
      | '=' :: value => return (← assign o s value, none)
      | value => return (← assign o s value, none)

/-- Reads one option. -/
def readOption (o : Options) (argument : Text) : Except Exit (Options × Option Setter) :=
  match shape argument with
  | .long name value =>
    match longOption? name, value with
    | none, _ => .error (.refused (.unexpected argument))
    | some (.setter s), some value => return (← assign o s value, none)
    | some (.setter s), none => .ok (o, some s)
    | some (.flag _), some _ => .error (.refused (.surplusValue argument))
    | some (.flag f), none => return (← raise o f, none)
  | .short letters => readLetters argument o letters
  | _ => .error (.refused (.unexpected argument))

/-- Reads arguments; `waiting` is the option that waits for its value. -/
def readFrom (o : Options) (waiting : Option Setter) : List Text → Except Exit Options
  | [] =>
    match waiting with
    | none => .ok o
    | some s => .error (.refused (.missingValue s))
  | argument :: rest =>
    match waiting, shape argument with
    | none, .endMark =>
      match rest with
      | [] => .ok o
      | extra :: _ => .error (.refused (.unexpected extra))
    | some s, .plain value => do readFrom (← assign o s value) none rest
    | some s, _ => .error (.refused (.missingValue s))
    | none, _ => do
      let (o, waiting) ← readOption o argument
      readFrom o waiting rest

/-- The options that arguments give. -/
def Options.ofArguments (arguments : List Text) : Except Exit Options := do
  let o ← readFrom {} none arguments
  if o.dryRun && o.dumpModel then throw (.refused .conflict)
  return o

/-- The wording of a refusal. -/
def UsageError.message : UsageError → Text
  | unexpected argument => "unexpected argument ".toList ++ '\'' :: argument ++ "' found".toList
  | missingValue s => "a value is required for '--".toList ++ s.name ++ "'".toList
  | surplusValue argument => "unexpected value in '".toList ++ argument ++ "'".toList
  | repeated name => "the argument '--".toList ++ name ++ "' cannot be used multiple times".toList
  | conflict => "the argument '--dry-run' cannot be used with '--dump-model'".toList

end Scaffold.Command
