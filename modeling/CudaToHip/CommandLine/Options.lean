import CudaToHip.Config.Basic

/-!
# Command line options

Arguments are read from the left; the first one that is wrong, or that asks for help or the version,
decides. Options may stand before, between and behind the files, and behind a lone double dash
everything is a file. No option may be given twice.
-/

namespace CudaToHip

/-- What a command line asks for. -/
structure Options where
  files : List Path
  config : Option Path
  report : Option Path
  dryRun : Bool
  strict : Bool
  conflictPolicy : Option ConflictPolicy
  verbose : Bool
  deriving Repr, DecidableEq, Inhabited

/-- Why a command line leads to no run. -/
inductive Stop where
  | usage
  | help
  | version
  deriving Repr, DecidableEq

/-- The code the program ends with. -/
def Stop.exitCode : Stop → Nat
  | .usage => 2
  | .help | .version => 0

namespace Options

def none : Options := ⟨[], .none, .none, false, false, .none, false⟩

/-- Options that stand alone. -/
inductive Flag where
  | dryRun
  | strict
  | verbose
  | help
  | version
  deriving Repr, DecidableEq

/-- Options with a value. -/
inductive Setting where
  | config
  | report
  | conflictPolicy
  deriving Repr, DecidableEq

def Flag.ofName? (name : String) : Option Flag :=
  [("dry-run", Flag.dryRun), ("strict", .strict), ("verbose", .verbose), ("help", .help),
   ("version", .version)].lookup name

def Flag.ofLetter? (letter : Char) : Option Flag :=
  [('v', Flag.verbose), ('h', .help), ('V', .version)].lookup letter

def Setting.ofName? (name : String) : Option Setting :=
  [("config", Setting.config), ("report", .report),
    ("conflict-policy", .conflictPolicy)].lookup name

/-- The options with a flag raised. -/
def raise (o : Options) : Flag → Except Stop Options
  | .dryRun => if o.dryRun then .error .usage else .ok { o with dryRun := true }
  | .strict => if o.strict then .error .usage else .ok { o with strict := true }
  | .verbose => if o.verbose then .error .usage else .ok { o with verbose := true }
  | .help => .error .help
  | .version => .error .version

/-- A path must not be empty. -/
def path (text : String) : Except Stop Path :=
  if text = "" then .error .usage else .ok ⟨text⟩

def policy (text : String) : Except Stop ConflictPolicy :=
  if text = "exact" then .ok .exactSpan
  else if text = "overlap" then .ok .overlap
  else .error .usage

/-- A value kept, if there is none yet. -/
def once {α : Type} (old : Option α) (new : Except Stop α) : Except Stop (Option α) :=
  if old.isSome then .error .usage else new.map some

/-- The options with a value set. -/
def assign (o : Options) (setting : Setting) (value : String) : Except Stop Options :=
  match setting with
  | .config => return { o with config := ← once o.config (path value) }
  | .report => return { o with report := ← once o.report (path value) }
  | .conflictPolicy =>
    return { o with conflictPolicy := ← once o.conflictPolicy (policy value) }

def addFile (o : Options) (text : String) : Except Stop Options := do
  return { o with files := o.files ++ [← path text] }

/-- The argument is an option, not a file or a value: a dash with something behind it. -/
def isOption (arg : String) : Bool :=
  match arg.toList with
  | '-' :: _ :: _ => true
  | _ => false

/-- The name of a long option and the value attached to it, if there is one. -/
def splitLong (cs : List Char) : String × Option String :=
  let name := cs.takeWhile (· ≠ '=')
  (String.ofList name,
    if name.length < cs.length then some (String.ofList (cs.drop (name.length + 1)))
    else Option.none)

/-- Flags given by single letters. -/
def raiseLetters (o : Options) : List Char → Except Stop Options
  | [] => .ok o
  | c :: cs =>
    match Flag.ofLetter? c with
    | some flag => do raiseLetters (← o.raise flag) cs
    | Option.none => .error .usage

/-- The options with an argument taken in, and the number of further arguments used up. -/
def take (o : Options) (arg : String) (args : List String) : Except Stop (Options × Nat) :=
  match arg.toList with
  | ['-', '-'] => return (← args.foldlM addFile o, args.length)
  | '-' :: '-' :: cs =>
    let (name, attached?) := splitLong cs
    match Flag.ofName? name, Setting.ofName? name, attached?, args.head? with
    | some flag, _, Option.none, _ => return (← o.raise flag, 0)
    | _, some setting, some value, _ => return (← o.assign setting value, 0)
    | _, some setting, Option.none, some value =>
      if isOption value then .error .usage else return (← o.assign setting value, 1)
    | _, _, _, _ => .error .usage
  | '-' :: c :: cs => return (← o.raiseLetters (c :: cs), 0)
  | _ => return (← o.addFile arg, 0)

/-- The options with all further arguments taken in. -/
def takeAll (o : Options) : List String → Except Stop Options
  | [] => .ok o
  | arg :: args =>
    match o.take arg args with
    | .error e => .error e
    | .ok (o, used) => takeAll o (args.drop used)
termination_by args => args.length
decreasing_by simp only [List.length_drop, List.length_cons]; omega

/-- The options that the arguments spell; at least one file must be among them. -/
def parse (args : List String) : Except Stop Options := do
  let o ← none.takeAll args
  if o.files.isEmpty then .error .usage else .ok o

end Options

end CudaToHip
