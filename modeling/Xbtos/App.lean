import Xbtos.Strings

/-! The application manager of kernel/app/app.cpp. Entry points are values of a type of
their own: a call of one is recorded, not run. A call with no result follows a null
pointer or leaves an array. -/
namespace Xbtos.App
open Foundation.Buffer Strings

def appPermissionConsole : UInt32 := (1 : UInt32) <<< 0
def appPermissionFileRead : UInt32 := (1 : UInt32) <<< 1
def appPermissionFileWrite : UInt32 := (1 : UInt32) <<< 2
def appPermissionNetwork : UInt32 := (1 : UInt32) <<< 3
def appPermissionHardware : UInt32 := (1 : UInt32) <<< 4
def appPermissionProcess : UInt32 := (1 : UInt32) <<< 5

def maxApps : Nat := 16
def containerPathSize : Nat := 64

inductive AppResult
  | ok | errInvalid | errDenied | errNotFound | errFull
deriving DecidableEq

structure AppManifest where
  identifier : Option CString
  displayName : Option CString
  version : Option CString
  requestedPermissions : UInt32

structure AppSandbox where
  /-- What has been written to container_path, from its front. -/
  containerPath : Bytes
  grantedPermissions : UInt32

structure AppContext where
  manifest : AppManifest
  sandbox : AppSandbox

structure AppBundle (ε : Type) where
  manifest : AppManifest
  entry : Option ε
  isUsed : Bool

structure AppManager (ε : Type) where
  apps : Vector (AppBundle ε) maxApps
  appCount : Nat

def defaultAllowedPermissions (requested : UInt32) : UInt32 :=
  let safePermissions := appPermissionConsole ||| appPermissionFileRead ||| appPermissionFileWrite
  requested &&& safePermissions

def dot : UInt8 := 46
def slash : UInt8 := 47

/-- The loops of build_container_path that copy: from the next byte of the text on,
outPath is what has been written. -/
def copyMapped (f : UInt8 → UInt8) (outSize : Nat) : Bytes → Bytes → Option Bytes
  | [], _ => none
  | c :: text, outPath =>
    if c ≠ 0 ∧ outPath.length + 1 < outSize then do
      copyMapped f outSize text (← push outSize outPath (f c))
    else some outPath

def pathByte (c : UInt8) : UInt8 := if c = dot then slash else c

def buildContainerPath (identifier : Option Bytes) (outSize : Nat) : Option Bytes := do
  let outPath ← copyMapped id outSize (literal "/Applications/" ++ [0]) []
  let outPath ← match identifier with
    | some identifier => copyMapped pathByte outSize identifier outPath
    | none => some outPath
  let outPath ←
    if outPath.length + 5 < outSize then pushAll outSize outPath (literal ".app") else some outPath
  push outSize outPath 0

section
variable {ε : Type}

/-- A bundle after kmemset(apps, 0, sizeof(apps)). -/
def zeroBundle : AppBundle ε := ⟨⟨none,none,none,0⟩,none,false⟩

def init (_m : AppManager ε) : AppManager ε := ⟨Vector.replicate maxApps zeroBundle,0⟩

def pointerOf (text : Option CString) : Option Bytes := text.map CString.pointer

/-- The search of register_app and of launch, from slot i with r iterations left. -/
def findFrom (m : AppManager ε) (identifier : Option Bytes) : Nat → Nat → Option (Option Nat)
  | 0, _ => some none
  | r+1, i => do
    let bundle ← m.apps[i]?
    if bundle.isUsed then
      if (← kstrcmp (← pointerOf bundle.manifest.identifier) (← identifier)) = 0 then return some i
      else findFrom m identifier r (i+1)
    else findFrom m identifier r (i+1)

def registerApp (manifest : Option AppManifest) (entry : Option ε) (m : AppManager ε) :
    Option (AppResult × AppManager ε) :=
  match manifest, entry with
  | some manifest, some entry => do
    if manifest.identifier.isNone then return (.errInvalid,m)
    if maxApps ≤ m.appCount then return (.errFull,m)
    match ← findFrom m (pointerOf manifest.identifier) m.appCount 0 with
    | some _ => return (.errInvalid,m)
    | none =>
      let apps ← store m.apps m.appCount ⟨manifest,some entry,true⟩
      return (.ok,⟨apps,m.appCount + 1⟩)
  | _, _ => some (.errInvalid,m)

/-- What a launch returned, printed, and the calls of entry points it made. -/
structure Launch (ε : Type) where
  result : AppResult
  printed : List (Option Bytes)
  entered : List (ε × AppContext)

def launch (identifier : Option Bytes) (m : AppManager ε) : Option (Launch ε) := do
  match ← findFrom m identifier m.appCount 0 with
  | none => return ⟨.errNotFound,[],[]⟩
  | some i =>
    let bundle ← m.apps[i]?
    let grantedPermissions := defaultAllowedPermissions bundle.manifest.requestedPermissions
    let containerPath ← buildContainerPath identifier containerPathSize
    let context : AppContext := ⟨bundle.manifest,⟨containerPath,grantedPermissions⟩⟩
    return ⟨.ok,[some (literal "Launching app: " ++ [0]),pointerOf bundle.manifest.displayName,
      some (literal "\nSandbox: " ++ [0]),some containerPath,some (literal "\n" ++ [0])],
      [(← bundle.entry,context)]⟩

end

def hasPermission (context : Option AppContext) (permission : UInt32) : Bool :=
  match context with
  | none => false
  | some context => context.sandbox.grantedPermissions &&& permission = permission

end Xbtos.App
