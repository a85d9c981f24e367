import KeywordConfig.Evaluation
import KeywordConfig.Registry.Load

namespace KeywordConfig.CommandLine

structure Invocation where
  script : String
  registry : String
  output : Option String := none
  compact : Bool := false
deriving DecidableEq, Repr

inductive Request where
  | run (invocation : Invocation)
  | version
  | help
  | misuse
deriving DecidableEq, Repr

-- The arguments seen so far.
structure Given where
  positionals : List String := []
  output : Option String := none
  compact : Bool := false

inductive Argument where
  | version
  | help
  | compact
  | output (value : Option String)
  | positional (value : String)
  | unknown

namespace Argument

def ofShort : List Char → Argument
  | 'V' :: _ => .version
  | 'h' :: _ => .help
  | ['o'] => .output none
  | 'o' :: '=' :: value => .output (String.ofList value)
  | 'o' :: value => .output (String.ofList value)
  | _ => .unknown

def ofLong (name : List Char) : Argument :=
  let word := String.ofList (name.takeWhile (· ≠ '='))
  match word, name.dropWhile (· ≠ '=') with
  | "version", [] => .version
  | "help", [] => .help
  | "compact", [] => .compact
  | "output", [] => .output none
  | "output", _ :: value => .output (String.ofList value)
  | _, _ => .unknown

def ofString (arg : String) : Argument :=
  match arg.toList with
  | '-' :: '-' :: name => ofLong name
  | ['-'] => .positional arg
  | '-' :: letters => ofShort letters
  | _ => .positional arg

end Argument

namespace Given

def addPositional (g : Given) (value : String) : Option Given :=
  if value.isEmpty || g.positionals.length ≥ 2 then none
  else some { g with positionals := g.positionals ++ [value] }

def addOutput (g : Given) (value : String) : Option Given :=
  if value.isEmpty || g.output.isSome then none else some { g with output := value }

def addCompact (g : Given) : Option Given :=
  if g.compact then none else some { g with compact := true }

def request (g : Given) : Request :=
  match g.positionals with
  | [script, registry] => .run { script, registry, output := g.output, compact := g.compact }
  | _ => .misuse

end Given

namespace Request

def ofPositionals (g : Given) : List String → Request
  | [] => g.request
  | arg :: rest =>
      match g.addPositional arg with
      | some g => ofPositionals g rest
      | none => .misuse

-- Arguments are taken from left to right, and the first that cannot be taken ends it. Behind two
-- dashes every argument is positional.
def ofArgsAfter (g : Given) : List String → Request
  | [] => g.request
  | arg :: rest =>
      if arg = "--" then ofPositionals g rest
      else
        match Argument.ofString arg with
        | .version => .version
        | .help => .help
        | .unknown => .misuse
        | .compact =>
            match g.addCompact with
            | some g => ofArgsAfter g rest
            | none => .misuse
        | .positional value =>
            match g.addPositional value with
            | some g => ofArgsAfter g rest
            | none => .misuse
        | .output (some value) =>
            match g.addOutput value with
            | some g => ofArgsAfter g rest
            | none => .misuse
        | .output none =>
            match rest with
            | [] => .misuse
            | value :: rest =>
                match Argument.ofString value with
                | .positional value =>
                    match g.addOutput value with
                    | some g => ofArgsAfter g rest
                    | none => .misuse
                | _ => .misuse

def ofArgs (args : List String) : Request := ofArgsAfter {} args

end Request

inductive FileError where
  | notFound
  | notDirectory
  | isDirectory
  | nameTooLong
  | other (text : String)
deriving DecidableEq, Repr

def FileError.message : FileError → String
  | .notFound => "No such file or directory (os error 2)"
  | .notDirectory => "Not a directory (os error 20)"
  | .isDirectory => "Is a directory (os error 21)"
  | .nameTooLong => "File name too long (os error 36)"
  | .other text => text

-- The files that a run may read and write, and what is said there of a text that is no JSON.
structure Host (m : Type → Type) where
  read : String → m (Except FileError String)
  write : String → String → m (Except FileError Unit)
  complaint : String → String

inductive Failure where
  | reading (path : String) (why : FileError)
  | loading (path : String) (why : LoadError) (complaint : String)
  | interpreting (path : String) (why : ConfigError)
  | writing (path : String) (why : FileError)

-- From the step that failed to what made it fail.
def Failure.chain : Failure → List String
  | .reading path why => [s!"Reading {path}", why.message]
  | .loading path why complaint => s!"Parsing registry {path}" :: why.causes complaint
  | .interpreting path why => [s!"Interpreting {path}", why.message]
  | .writing path why => ["Writing configuration document", s!"Writing {path}", why.message]

-- The lines of a text stand under each other.
def indented (first other text : String) : String :=
  first ++ String.ofList (text.toList.flatMap fun c => if c = '\n' then c :: other.toList else [c])

def numbered (i : Nat) : List String → List String
  | [] => []
  | cause :: rest => indented s!"    {i}: " "       " cause :: numbered (i + 1) rest

-- Several causes are numbered.
def report : List String → String
  | [] => "Error: \n"
  | [text] => s!"Error: {text}\n"
  | [text, cause] => s!"Error: {text}\n\nCaused by:\n" ++ indented "    " "    " cause ++ "\n"
  | text :: causes => s!"Error: {text}\n\nCaused by:\n" ++ "\n".intercalate (numbered 0 causes) ++ "\n"

structure Exit where
  code : Nat
  stdout : String := ""
  stderr : String := ""
deriving DecidableEq, Repr

def versionText : String := "keyconf 0.1.0\n"

def usage : String := "Usage: keyconf [OPTIONS] <SCRIPT> <REGISTRY>\n"

def helpText : String :=
  usage ++ "\n" ++
  "Arguments:\n" ++
  "  <SCRIPT>    Configuration script to interpret\n" ++
  "  <REGISTRY>  Keyword registry (.json)\n\n" ++
  "Options:\n" ++
  "  -o, --output <OUTPUT>  Output file for the document; stdout when omitted\n" ++
  "      --compact          Emit single-line JSON\n" ++
  "  -h, --help             Print help\n" ++
  "  -V, --version          Print version\n"

def output (compact : Bool) (document : Document) : String :=
  document.render (if compact then .compact else .pretty) ++ "\n"

section

variable {m : Type → Type} [Monad m]

def orFail (failure : ε → Failure) (result : Except ε α) : ExceptT Failure m α :=
  ExceptT.mk (pure (result.mapError failure))

-- What is printed: the document, unless it goes to a file.
def execute (host : Host m) (i : Invocation) : ExceptT Failure m String := do
  let script ← orFail (.reading i.script) (← host.read i.script)
  let json ← orFail (.reading i.registry) (← host.read i.registry)
  let registry ← orFail (.loading i.registry · (host.complaint json)) (Registry.load json)
  let document ← orFail (.interpreting i.script) (interpret script registry)
  let text := output i.compact document
  match i.output with
  | none => return text
  | some path =>
      orFail (.writing path) (← host.write path text)
      return ""

def run (host : Host m) (args : List String) : m Exit :=
  match Request.ofArgs args with
  | .version => pure { code := 0, stdout := versionText }
  | .help => pure { code := 0, stdout := helpText }
  | .misuse => pure { code := 2, stderr := usage }
  | .run invocation => do
      match ← (execute host invocation).run with
      | .ok text => return { code := 0, stdout := text }
      | .error failure => return { code := 1, stderr := report failure.chain }

end

end KeywordConfig.CommandLine
