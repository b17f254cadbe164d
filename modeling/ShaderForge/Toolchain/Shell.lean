import ShaderForge.Toolchain.Runner

/-!
# ShaderForge.Toolchain.Shell

A small command language, for tools that are no more than a few printed lines and an exit code: simple commands
joined by `;`, `&&` and `||`, words with quotes and variables, and the commands `echo`, `printf`, `pwd`, `exit`,
`kill`, `true`, `false` and `:`.

* `Shell.Word`, `Shell.Step` — a script as data.
* `Shell.read`               — a script of its text.
* `Shell.run`                — what a script prints and how it ends.
* `Shell.tool`               — the shell, called on a source that is a script.
-/

namespace ShaderForge

namespace Shell

inductive Piece where
  | text (s : Bytes)
  | parameter (name : Bytes) (quoted : Bool)
  deriving DecidableEq, Repr

abbrev Word := List Piece

inductive Link where
  | always
  | onSuccess
  | onFailure
  deriving DecidableEq, Repr

inductive Token where
  | word (w : Word)
  | link (l : Link)
  | redirect (stream : Nat)
  deriving DecidableEq, Repr

structure Step where
  link : Link
  words : List Word
  silenced : List (Nat × Word) := []
  deriving Repr

def isNameByte (b : UInt8) : Bool := Bytes.isLetter b || Bytes.isDigit b || b = octet '_'

def isOneByteParameter (b : UInt8) : Bool :=
  b = octet '$' || b = octet '?' || b = octet '#' || b = octet '@' || b = octet '*' || Bytes.isDigit b

def parameter? (s : Bytes) : Option (Bytes × Bytes) :=
  match s with
  | [] => none
  | b :: rest =>
    if b = octet '\x7b' then
      match Bytes.cut? (octet '\x7d') rest with
      | some (name, rest) => some (name, rest)
      | none => none
    else if isOneByteParameter b then some ([b], rest)
    else
      let name := s.takeWhile isNameByte
      if name = [] then none else some (name, s.dropWhile isNameByte)

def addText (s : Bytes) : Word → Word
  | [] => [.text s]
  | w => match w.getLast? with
    | some (.text t) => w.dropLast ++ [.text (t ++ s)]
    | _ => w ++ [.text s]

/-- Where reading stands: outside a word, in one, or in one between quotes. -/
inductive Place where
  | blank
  | word (w : Word)
  | single (w : Word)
  | double (w : Word)
  deriving Repr

def Place.tokens : Place → List Token
  | .blank => []
  | .word w | .single w | .double w => [.word w]

def operator? (s : Bytes) : Option (Token × Nat) :=
  if s.startsWith "&&" then some (.link .onSuccess, 2)
  else if s.startsWith "||" then some (.link .onFailure, 2)
  else match s with
    | b :: _ =>
      if b = octet ';' || b = Bytes.lf then some (.link .always, 1)
      else if b = octet '>' then some (.redirect 1, 1)
      else none
    | [] => none

def tokensFrom (place : Place) (s : Bytes) : List Token :=
  match s with
  | [] => place.tokens
  | b :: rest =>
    let parameter (w : Word) (quoted : Bool) (next : Word → Place) : List Token :=
      match parameter? rest with
      | some (name, after) =>
        if after.length ≤ rest.length then tokensFrom (next (w ++ [.parameter name quoted])) after else []
      | none => tokensFrom (next (addText [b] w)) rest
    match place with
    | .single w =>
      if b = octet '\x27' then tokensFrom (.word w) rest else tokensFrom (.single (addText [b] w)) rest
    | .double w =>
      if b = Bytes.quote then tokensFrom (.word w) rest
      else if b = octet '$' then parameter w true .double
      else if b = Bytes.backslash then
        match rest with
        | c :: after =>
          let kept : Bytes :=
            if c = Bytes.quote || c = octet '$' || c = Bytes.backslash then [c] else [b, c]
          tokensFrom (.double (addText kept w)) after
        | [] => (Place.double (addText [b] w)).tokens
      else tokensFrom (.double (addText [b] w)) rest
    | place =>
      let w := match place with
        | .word w => w
        | _ => []
      if b = Bytes.space || b = Bytes.tab then place.tokens ++ tokensFrom .blank rest
      else if b = octet '\x27' then tokensFrom (.single (addText [] w)) rest
      else if b = Bytes.quote then tokensFrom (.double (addText [] w)) rest
      else if b = octet '$' then parameter w false .word
      else if b = Bytes.backslash then
        match rest with
        | c :: after => tokensFrom (.word (addText [c] w)) after
        | [] => (Place.word (addText [b] w)).tokens
      else match operator? s with
        | some (.redirect _, _) =>
          -- a single digit directly before is the stream
          match w with
          | [.text [d]] =>
            if Bytes.isDigit d then .redirect (d.toNat - 0x30) :: tokensFrom .blank rest
            else place.tokens ++ .redirect 1 :: tokensFrom .blank rest
          | _ => place.tokens ++ .redirect 1 :: tokensFrom .blank rest
        | some (t, width) =>
          if 0 < width then place.tokens ++ t :: tokensFrom .blank (rest.drop (width - 1)) else []
        | none => tokensFrom (.word (addText [b] w)) rest
termination_by s.length
decreasing_by all_goals (simp only [List.length_cons, List.length_drop] at *; omega)

def stepsFrom (current : Step) : List Token → List Step
  | [] => [current]
  | .link l :: rest => current :: stepsFrom { link := l, words := [] } rest
  | .redirect n :: .word w :: rest =>
    stepsFrom { current with silenced := current.silenced ++ [(n, w)] } rest
  | .redirect _ :: rest => stepsFrom current rest
  | .word w :: rest => stepsFrom { current with words := current.words ++ [w] } rest

def read (script : Bytes) : List Step :=
  (stepsFrom { link := .always, words := [] } (tokensFrom .blank script)).filter (·.words ≠ [])

structure State where
  arguments : List Bytes := []
  bindings : List (Bytes × Bytes) := []
  directory : Path := []
  output : Bytes := []
  status : Nat := 0
  ended : Option Ending := none

/-- The process number of the shell itself; only `kill` makes something of it. -/
def ownNumber : Bytes := utf8 "\x24\x24"

def valueOf (st : State) (name : Bytes) : Bytes :=
  if name = utf8 "$" then ownNumber
  else if name = utf8 "?" then Bytes.ofNat st.status
  else if name = utf8 "#" then Bytes.ofNat (st.arguments.length - 1)
  else match Bytes.natOf? name with
    | some n => (st.arguments[n]?).getD []
    | none => (st.bindings.reverse.lookup name).getD []

/-- The words that a word stands for. Variables outside quotes are cut at blanks. -/
def expand (st : State) (w : Word) : List Bytes :=
  let add (done : List Bytes × Option Bytes) (p : Piece) : List Bytes × Option Bytes :=
    let (whole, last) := done
    match p with
    | .text s => (whole, some (last.getD [] ++ s))
    | .parameter name true => (whole, some (last.getD [] ++ valueOf st name))
    | .parameter name false =>
      match (valueOf st name).words with
      | [] => (whole, last)
      | first :: more =>
        let start := last.getD [] ++ first
        match more.reverse with
        | [] => (whole, some start)
        | final :: middle => (whole ++ start :: middle.reverse, some final)
  let (whole, last) := w.foldl add ([], none)
  whole ++ last.toList

/-- The escapes of `printf` and `echo`; octal digits may be led by a zero. -/
def unescapeFrom : (skip : Nat) → Bytes → Bytes
  | _, [] => []
  | skip + 1, _ :: s => unescapeFrom skip s
  | 0, b :: s =>
    if b ≠ Bytes.backslash then b :: unescapeFrom 0 s
    else match s with
      | [] => [b]
      | c :: _ =>
        let digits := (s.take 3).takeWhile fun d => Bytes.isDigit d && d < octet '8'
        if digits ≠ [] then
          UInt8.ofNat (digits.foldl (fun n d => 8 * n + (d.toNat - 0x30)) 0) :: unescapeFrom digits.length s
        else
          let known : List (Char × UInt8) :=
            [('n', 10), ('t', 9), ('r', 13), ('a', 7), ('b', 8), ('f', 12), ('v', 11), ('\\', 92)]
          match known.find? fun (k, _) => octet k = c with
          | some (_, v) => v :: unescapeFrom 1 s
          | none => b :: unescapeFrom 0 s

def unescape (s : Bytes) : Bytes := unescapeFrom 0 s

/-- The conversions of a format, filled from the arguments; those left over are given back. -/
def formatFrom (args : List Bytes) : Bytes → Bytes × List Bytes
  | [] => ([], args)
  | [b] => ([b], args)
  | b :: c :: s =>
    if b ≠ octet '%' then
      let (rest, left) := formatFrom args (c :: s)
      (b :: rest, left)
    else if c = octet '%' then
      let (rest, left) := formatFrom args s
      (b :: rest, left)
    else if c = octet 's' || c = octet 'd' then
      let (rest, left) := formatFrom args.tail s
      let shown : Bytes := match args with
        | [] => if c = octet 'd' then "0" else []
        | a :: _ => a
      (shown ++ rest, left)
    else
      let (rest, left) := formatFrom args (c :: s)
      (b :: rest, left)
termination_by s => s.length

def printfFrom : (fuel : Nat) → Bytes → List Bytes → Bytes
  | 0, _, _ => []
  | fuel + 1, format, args =>
    let (text, left) := formatFrom args format
    if left = [] || left.length = args.length then text else text ++ printfFrom fuel format left

def printf (format : Bytes) (args : List Bytes) : Bytes := printfFrom (args.length + 1) (unescape format) args

def say (text : Bytes) (st : State) : State := { st with output := st.output ++ text, status := 0 }

def command (name : Bytes) (args : List Bytes) (st : State) : State :=
  if name = utf8 "exit" then
    let code := match args with
      | [] => st.status
      | a :: _ => (Bytes.natOf? a).getD 2 % 256
    { st with status := code, ended := some (if code = 0 then .success else .exit code) }
  else if name = utf8 "echo" then
    match args with
    | first :: rest =>
      if first = utf8 "-n" then say (unescape (Bytes.join " " rest)) st
      else say (unescape (Bytes.join " " args) ++ [Bytes.lf]) st
    | [] => say [Bytes.lf] st
  else if name = utf8 "printf" then
    match args with
    | format :: rest => say (printf format rest) st
    | [] => { st with status := 2 }
  else if name = utf8 "pwd" then say (st.directory ++ [Bytes.lf]) st
  else if name = utf8 "true" || name = utf8 ":" || name = utf8 "sleep" then { st with status := 0 }
  else if name = utf8 "false" then { st with status := 1 }
  else if name = utf8 "kill" && args.getLast? = some ownNumber then { st with ended := some .killed }
  else { say ("sh: 1: " ++ name ++ ": not found\n") st with status := 127 }

def assignment? (s : Bytes) : Option (Bytes × Bytes) :=
  match Bytes.cut? (octet '=') s with
  | some (name, value) =>
    if name ≠ [] && name.all isNameByte && !(name.head?.any Bytes.isDigit) then some (name, value) else none
  | none => none

def step (st : State) (s : Step) : State :=
  if st.ended.isSome then st
  else
    let due := match s.link with
      | .always => true
      | .onSuccess => st.status = 0
      | .onFailure => st.status ≠ 0
    if !due then st
    else match s.words.flatMap (expand st) with
      | [] => st
      | name :: args =>
        match args, assignment? name with
        | [], some v => { st with bindings := st.bindings ++ [v], status := 0 }
        | _, _ =>
          let after := command name args st
          let away := s.silenced.any fun (n, w) => n = 1 && expand st w = [utf8 "/dev/null"]
          if away then { after with output := st.output } else after

def run (arguments : List Bytes) (bindings : List (Bytes × Bytes)) (directory : Path) (script : Bytes) :
    Bytes × Ending :=
  let st := (read script).foldl step { arguments, bindings, directory }
  (st.output, st.ended.getD (if st.status = 0 then .success else .exit st.status))

/-- The shell as a tool: the source of a call is the script, and the call's arguments are those of the script. -/
def tool : Tool := fun i =>
  let (output, ending) := run i.arguments [] [] i.source
  { output, ending }

end Shell

structure ProcessOptions where
  directory : Path := []
  bindings : List Bytes := []
  deriving Repr, Inhabited

def variableOf (s : Bytes) : Option (Bytes × Bytes) := Bytes.cut? (octet '=') s

/-- Runs a script in the system's shell, the only program of this system. The directory must be there. -/
def runScript (o : ProcessOptions) (name script : Bytes) : Action RunResult := do
  let w ← get
  if name ≠ utf8 "sh" then
    match Runner.lookup (fun _ => none) name w.disk with
    | .error failure => return { failure := some failure }
    | .ok _ => return {}
  else
    match w.disk.inspect true o.directory with
    | .error cause =>
      if o.directory = [] then return ofScript w
      else return { failure := some (.notStarted ⟨"chdir", o.directory, cause⟩) }
    | .ok _ => return ofScript w
where
  ofScript (w : World) : RunResult :=
    let directory := Path.absolute w.disk.cwdPath o.directory
    let inherited := [(utf8 "HOME", w.environment.home.getD []), (utf8 "PWD", directory)]
    let (output, ending) := Shell.run [utf8 "sh"] (inherited ++ o.bindings.filterMap variableOf) directory script
    { output, failure := Runner.failureOf true ending }

end ShaderForge
