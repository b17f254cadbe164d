import ShaderForge.Command.Error

/-!
# ShaderForge.Command.Inspect

Commands that read artifacts.

* `Command.info`    — lists what is in an artifact.
* `Command.extract` — writes its metadata and bytecode to files.
-/

namespace ShaderForge

namespace Command

def infoHead (path : Path) (f : Artifact.File) : List Bytes :=
  ["Artifact: " ++ path,
    "Shader:   " ++ f.metadata.shaderName,
    "Format:   " ++ f.dialect.label,
    "Size:     " ++ Bytes.ofNat f.size.toNat ++ " bytes",
    "Chunks:   " ++ Bytes.ofNat f.chunks.length,
    []]

def stageSize (f : Artifact.File) (st : Stage) : Nat := ((f.bytecode[st.buffer.toNat]?).getD []).length

def stageLines (f : Artifact.File) (kind : StageKind) (st : Stage) : List Bytes :=
  ("  [" ++ Bytes.ofInt st.buffer ++ "] " ++ kind.label.padGlyphs 14 ++ " " ++ st.entryPoint.padGlyphs 10 ++ " " ++
      Bytes.ofNat (stageSize f st) ++ " bytes") ::
    (st.inputs.getD []).map fun i => "        " ++ i.semantic.padGlyphs 12 ++ " " ++ i.type.label

def exportLines (name : Bytes) (e : Export) : List Bytes :=
  let binding : Bytes := match e.binding with
    | some b => Bytes.ofInt b
    | none => "-"
  let size : Bytes := match e.sizeInBytes with
    | some n => " (" ++ Bytes.ofInt n ++ " bytes)"
    | none => []
  ("  " ++ name.padGlyphs 20 ++ " binding " ++ binding.padGlyphs 3 ++ " " ++ e.type ++ size) ::
    (e.elements.getD []).map fun el =>
      "        +" ++ (Bytes.ofInt el.offset).padGlyphs 4 ++ " " ++ el.name.padGlyphs 20 ++ " " ++ el.type.label

def printLines (ls : List Bytes) : Command Unit := ls.forM printLine

def printExports : List (Bytes × Option Export) → Command Unit
  | [] => pure ()
  | (name, some e) :: rest => do
    printLines (exportLines name e)
    printExports rest
  | (name, none) :: _ => throw (.absentExport name)

def info (args : List Bytes) : Command Unit := do
  match args with
  | [] => usage "Usage: shaderc info <file.bin>"
  | path :: _ =>
    let f ← lift .artifact (Action.look fun d => Artifact.load d path)
    printLines (infoHead path f)
    printLine "Stages:"
    printLines (f.metadata.stageTable.ordered.flatMap fun (kind, st) => stageLines f kind st)
    if 0 < f.metadata.exportTable.size then
      printLines [[], "Exports:"]
      printExports f.metadata.exportTable.ordered

def extractFile (path : Path) (data : Bytes) : Command Unit := do
  lift (.writing path) (Action.perform fun d => d.store path data)
  printLine ("Extracted: " ++ path ++ " (" ++ Bytes.ofNat data.length ++ " bytes)")

def bytecodeExt (d : Dialect) : Bytes := if d = .spirv then ".spv" else ".dxil"

def extractStages (f : Artifact.File) (dir : Path) (stem : Bytes) : List (StageKind × Stage) → Command Unit
  | [] => pure ()
  | (kind, st) :: rest => do
    match f.stageBytecode? kind with
    | some code => extractFile (Path.join dir (stem ++ "." ++ st.entryPoint ++ bytecodeExt f.dialect)) code
    | none => pure ()
    extractStages f dir stem rest

/-- Writes the metadata and the bytecode of an artifact to files. The names come from the artifact, so they are
checked before any file is written. -/
def extract (args : List Bytes) : Command Unit := do
  match args with
  | [] => usage "Usage: shaderc extract <file.bin> [output_dir]"
  | path :: rest =>
    let dir := rest.headD "."
    let f ← lift .artifact (Action.look fun d => Artifact.load d path)
    lift .directory (Action.performAll fun d => d.mkdirAll dir)
    require (.shaderName path) (checkName f.metadata.shaderName)
    f.metadata.stageTable.toList.forM fun (_, st) => require (.entryName path) (checkName st.entryPoint)
    let stem := f.metadata.shaderName.lower
    let text ← require .metadata f.metadata.indentedText
    extractFile (Path.join dir (stem ++ ".json")) text
    extractStages f dir stem f.metadata.stageTable.ordered

end Command

end ShaderForge
