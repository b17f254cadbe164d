import ShaderForge.Artifact.Format
import ShaderForge.Text.Blank

/-!
# ShaderForge.Toolchain.Backend

Target backends and shader profiles.

* `Backend.read`, `Backend.label` — names of backends.
* `Backend.require`  — only one backend has a compiler.
* `Backend.dialect`  — the bytecode dialect of a backend.
* `profile`          — the target profile of a stage.
-/

namespace ShaderForge

structure Backend where
  code : UInt8
  deriving DecidableEq, Repr, Inhabited

inductive TargetFault where
  | unknownBackend (name : Bytes)
  | noCompiler (backend : Backend)
  | unsupportedStage (kind : StageKind)
  deriving DecidableEq, Repr

namespace Backend

def directX12 : Backend := ⟨0⟩
def vulkan : Backend := ⟨1⟩

def label (b : Backend) : Bytes :=
  if b = directX12 then "DX12"
  else if b = vulkan then "VK"
  else "Backend(" ++ Bytes.ofNat b.code.toNat ++ ")"

def read (name : Bytes) : Except TargetFault Backend :=
  let word := name.trim.lower
  if [utf8 "dx12", utf8 "d3d12", utf8 "directx12"].contains word then .ok directX12
  else if [utf8 "vk", utf8 "vulkan"].contains word then .ok vulkan
  else .error (.unknownBackend name)

def require (b : Backend) : Except TargetFault Unit :=
  if b = directX12 then .ok () else .error (.noCompiler b)

def dialect (b : Backend) : Except TargetFault Dialect :=
  if b = directX12 then .ok .dxil
  else if b = vulkan then .ok .spirv
  else .error (.noCompiler b)

end Backend

def TargetFault.message : TargetFault → Bytes
  | .unknownBackend name => "backend not supported: " ++ name.quoted
  | .noCompiler b =>
    if b = .vulkan then "backend not supported: VK (SPIR-V adapter not implemented)"
    else "backend not supported: " ++ b.label
  | .unsupportedStage kind => "unsupported shader target: " ++ kind.label

def profile (kind : StageKind) (model : Bytes) : Except TargetFault Bytes :=
  if kind = .vertex then .ok ("vs_" ++ model)
  else if kind = .pixel then .ok ("ps_" ++ model)
  else .error (.unsupportedStage kind)

end ShaderForge
