import ShaderForge.Toolchain.ToolError
import ShaderForge.World

/-!
# ShaderForge.Toolchain.Runner

Running the native compiler. A tool is a function from a call to what the call does, so that its effects on the
world are data that `Runner.run` carries out.

* `Tool`, `Response` — what a call writes, prints and ends with.
* `Runner`           — a tool that stands in for any name, or programs looked up as a system does.
* `ScriptedTool`     — a tool given by a table of behaviours.
-/

namespace ShaderForge

inductive Ending where
  | success
  | exit (code : Nat)
  | killed
  | refused (text : Bytes)
  | hang
  deriving DecidableEq, Repr, Inhabited

/-- What a call does: the bytecode it writes, what it prints, whether work is cancelled meanwhile, and how it
ends. -/
structure Response where
  bytecode : Option Bytes := none
  output : Bytes := []
  cancels : Bool := false
  ending : Ending := .success
  deriving DecidableEq, Repr, Inhabited

structure Invocation where
  arguments : List Bytes
  source : Bytes
  deriving DecidableEq, Repr

namespace Invocation

def argumentOf (flag : Bytes) : List Bytes → Option Bytes
  | a :: b :: rest => if a = flag then some b else argumentOf flag (b :: rest)
  | _ => none

def sourcePath (i : Invocation) : Path := i.arguments.headD []
def profile (i : Invocation) : Bytes := (argumentOf "-T" i.arguments).getD []
def entry (i : Invocation) : Bytes := (argumentOf "-E" i.arguments).getD []

end Invocation

abbrev Tool := Invocation → Response

inductive Runner where
  | direct (tool : Tool)
  | system (programs : Bytes → Option Tool)

instance : Inhabited Runner := ⟨.system fun _ => none⟩

inductive Interruption where
  | none
  | deadline
  | cancelled
  deriving DecidableEq, Repr

structure RunResult where
  output : Bytes := []
  failure : Option RunFailure := none
  interruption : Interruption := .none
  deriving DecidableEq, Repr

namespace Runner

/-- The failure that an ending is seen as. A program that refuses exits with code one when it is a process of its
own. -/
def failureOf (process : Bool) : Ending → Option RunFailure
  | .success => none
  | .exit code => some (.exit code)
  | .killed => some .killed
  | .refused text => some (if process then .exit 1 else .refused text)
  | .hang => some .killed

/-- The interruption at the end of a call: work that was cancelled stays so, and a call that never ends runs into
its time limit. -/
def interruptionOf (cancelled : Bool) (ending : Ending) : Interruption :=
  if cancelled then .cancelled else if ending = .hang then .deadline else .none

/-- Carries out a call. The bytecode goes to the file named behind `-Fo`; a write that fails is not noticed. -/
def call (process : Bool) (tool : Tool) (name : Bytes) (args : List Bytes) : Action RunResult := do
  let source ← Action.look fun d =>
    match d.contents (args.headD []) with
    | .ok content => content
    | .error _ => []
  let response := tool ⟨args, source⟩
  modify fun w => { w with calls := w.calls ++ [name :: args] }
  match response.bytecode, Invocation.argumentOf "-Fo" args with
  | some code, some path => do let _ ← Action.perform fun d => d.store path code
  | _, _ => pure ()
  if response.cancels then modify fun w => { w with cancelled := true }
  return {
    output := response.output
    failure := failureOf process response.ending
    interruption := interruptionOf (← get).cancelled response.ending }

/-- Looks a program up: a name with a slash is a path, and no file of the tree may be executed. -/
def lookup (programs : Bytes → Option Tool) (name : Bytes) (d : Disk) : Except RunFailure Tool :=
  if name = [] then .error .noCommand
  else if Bytes.slash ∈ name then
    match programs name with
    | some tool => .ok tool
    | none =>
      match d.inspect true name with
      | .ok _ => .error (.notStarted ⟨"fork/exec", name, .permissionDenied⟩)
      | .error cause => .error (.notStarted ⟨"fork/exec", name, cause⟩)
  else match programs name with
    | some tool => .ok tool
    | none => .error (.notInPath name)

/-- Runs a tool. A system starts no process once work is cancelled. -/
def run (r : Runner) (name : Bytes) (args : List Bytes) : Action RunResult := do
  let w ← get
  match r with
  | .direct tool => call false tool name args
  | .system programs =>
    let interruption := interruptionOf w.cancelled .success
    match lookup programs name w.disk with
    | .error failure => return { failure := some failure, interruption }
    | .ok tool =>
      if w.cancelled then return { failure := some .stopped, interruption }
      else call true tool name args

end Runner

/-! ## Scripted tools -/

/-- What a scripted tool does for some calls. In the text written, `$TEXT` stands for the source; in the text
printed, `$SRC` for its path. -/
structure Behaviour where
  writes : Bool := true
  write : Option Bytes := none
  output : Bytes := []
  cancels : Bool := false
  ending : Ending := .success
  deriving Repr, Inhabited

/-- Behaviours by key. The key of a call is its source's stem and entry, or the entry, or `*`. -/
abbrev ScriptedTool := List (Bytes × Behaviour)

namespace ScriptedTool

def keys (i : Invocation) : List Bytes :=
  [Path.stem i.sourcePath ++ "/" ++ i.entry, i.entry, "*"]

def behaviour (t : ScriptedTool) (i : Invocation) : Behaviour :=
  ((keys i).findSome? fun k => t.lookup k).getD {}

def tool (t : ScriptedTool) : Tool := fun i =>
  let b := t.behaviour i
  let code := match b.write with
    | some text => Bytes.replaceAll "$TEXT" i.source text
    | none => i.profile ++ ":" ++ i.entry
  { bytecode := if b.writes then some code else none
    output := Bytes.replaceAll "$SRC" i.sourcePath b.output
    cancels := b.cancels
    ending := b.ending }

end ScriptedTool

end ShaderForge
