import Xbtos.Vfs
import Xbtos.App
import Xbtos.I18n

/-! The commands of kernel/main.cpp. A function gives the calls it makes of the console, the
file system and applications, in order. A command with no result has undefined behaviour. -/
namespace Xbtos.Shell
open Foundation.Buffer Strings
open Vfs (FileSystem FileResult FileStat fileNameSize)
open App (AppManager AppManifest AppContext AppResult)
open I18n (Language MessageId isWord)

/-- The bytes of the line of the editor, with its terminator. -/
def bufferSize : Nat := 256

inductive EntryPoint
  | demoAppMain
deriving DecidableEq

/-- A call of the file system, with what it returned. -/
inductive FileCall
  | create (path : Bytes) (result : FileResult)
  | write (path content : Bytes) (result : FileResult)
  | append (path content : Bytes) (result : FileResult)
  | remove (path : Bytes) (result : FileResult)
  | read (path : Bytes) (content : Option Bytes)
  | stat (path : Bytes) (result : FileResult)
  | list (path : Bytes)

inductive Call
  | printChar (c : UInt8)
  | printString (text : Option Bytes)
  | printUtf8 (text : Bytes)
  | clearScreen
  | endOfInterrupt (irq : UInt8)
  | executeCommand (cmd : Bytes)
  | file (call : FileCall)
  | entry (entry : EntryPoint) (context : AppContext)

/-- What cpuid answers to 0 in the registers the kernel reads. -/
structure Cpuid where
  ebx : UInt32
  ecx : UInt32
  edx : UInt32

structure State where
  vfs : FileSystem
  apps : AppManager EntryPoint
  language : Language
  cpuid : Cpuid

def space : UInt8 := 32

def print (text : String) : Call := .printString (some (literal text ++ [0]))

def message (id : MessageId) (s : State) : Call := .printUtf8 (I18n.text s.language id)

def prompt (s : State) : List Call := [message .prompt s]

/-! Applications. -/

def demoAppMain (context : AppContext) : List Call :=
  [print "Hello from sandboxed app.\n",print "App ID: ",
    .printString (App.pointerOf context.manifest.identifier),print "\nContainer: ",
    .printString (some context.sandbox.containerPath),print "\n"]

def demoIdentifier : CString := ⟨literal "com.xbtos.demo",[],by decide,by decide⟩

def demo : AppManifest where
  identifier := some demoIdentifier
  displayName := some ⟨literal "XBTOS Demo",[],by decide,by decide⟩
  version := some ⟨literal "1.0",[],by decide,by decide⟩
  requestedPermissions := App.appPermissionConsole ||| App.appPermissionFileRead

def registerBuiltinApps (apps : AppManager EntryPoint) : Option (AppManager EntryPoint) := do
  return (← App.registerApp (some demo) (some .demoAppMain) apps).2

def runEntry : EntryPoint × AppContext → List Call
  | (.demoAppMain,context) => .entry .demoAppMain context :: demoAppMain context

/-! Parsing. -/

def startsWith : Bytes → Bytes → Option Bool
  | _, [] => none
  | text, p :: word =>
    if p = 0 then some true
    else
      match text with
      | [] => none
      | c :: text => if c ≠ p then some false else startsWith text word

def skipSpaces : Bytes → Option Bytes
  | [] => none
  | c :: text => if c = space then skipSpaces text else some (c :: text)

/-- The loop of copy_token from start[i] on; out is out[0] to out[i-1]. -/
def copyTokenFrom (outSize : Nat) : Bytes → Bytes → Option Bytes
  | [], _ => none
  | c :: start, out =>
    if c ≠ 0 ∧ c ≠ space ∧ out.length + 1 < outSize then do
      copyTokenFrom outSize start (← push outSize out c)
    else push outSize out 0

def copyToken (start : Bytes) (outSize : Nat) : Option Bytes := copyTokenFrom outSize start []

/-- The loop that moves content past the file name. -/
def skipToken : Bytes → Option Bytes
  | [] => none
  | c :: text => if c ≠ 0 ∧ c ≠ space then skipToken text else some (c :: text)

/-! Printing. -/

def printFileResult (result : FileResult) (s : State) : List Call :=
  match result with
  | .errNotFound => [message .fileNotFound s]
  | .errExists => [print "File already exists.\n"]
  | .errFull => [print "File table is full.\n"]
  | .errInvalidName => [print "Invalid file name.\n"]
  | .errTooLarge => [print "File content is too large.\n"]
  | .ok => []

/-- Its digits are taken in the same way as those of a size in a listing. -/
def printUint (value : Nat) : List Call :=
  if value = 0 then [.printChar 48]
  else (Vfs.reverseDigits 12 value []).reverse.map .printChar

def wordBytes (word : UInt32) : Bytes :=
  [word.toUInt8,(word >>> 8).toUInt8,(word >>> 16).toUInt8,(word >>> 24).toUInt8]

def vendor (cpuid : Cpuid) : Bytes :=
  wordBytes cpuid.ebx ++ wordBytes cpuid.edx ++ wordBytes cpuid.ecx ++ [0]

/-- What a command prints about the result of its call, where done is the message of success. -/
def report (done : MessageId) (result : FileResult) (s : State) : List Call :=
  if result = .ok then [message done s] else printFileResult result s

/-! The commands that have arguments; args is the command from the end of its name on. -/

def touch (args : Bytes) (s : State) : Option (State × List Call) := do
  let filename ← skipSpaces args
  let (result,vfs) ← Vfs.create (some filename) s.vfs
  return ({ s with vfs },.file (.create filename result) :: report .fileCreated result s ++ prompt s)

def rdf (args : Bytes) (s : State) : Option (State × List Call) := do
  let filename ← skipSpaces args
  let content ← Vfs.read (some filename) s.vfs
  let printed := match content with
    | some content => [.printUtf8 content,print "\n"]
    | none => [message .fileNotFound s]
  return (s,.file (.read filename content) :: printed ++ prompt s)

/-- The arguments of rec and append: the file name and the content. -/
def fileArguments (args : Bytes) : Option (Bytes × Bytes) := do
  let args ← skipSpaces args
  let filename ← copyToken args fileNameSize
  let content ← skipSpaces (← skipToken args)
  return (filename,content)

/-- The command rec. -/
def record (args : Bytes) (s : State) : Option (State × List Call) := do
  let (filename,content) ← fileArguments args
  if (← filename[0]?) = 0 ∨ (← content[0]?) = 0 then return (s,message .usageWrite s :: prompt s)
  let (result,vfs) ← Vfs.write (some filename) (some content) s.vfs
  return ({ s with vfs },
    .file (.write filename content result) :: report .fileWriteOk result s ++ prompt s)

def append (args : Bytes) (s : State) : Option (State × List Call) := do
  let (filename,content) ← fileArguments args
  let (result,vfs) ← Vfs.append (some filename) (some content) s.vfs
  return ({ s with vfs },
    .file (.append filename content result) :: report .fileWriteOk result s ++ prompt s)

def rm (args : Bytes) (s : State) : Option (State × List Call) := do
  let filename ← skipSpaces args
  let (result,vfs) ← Vfs.remove (some filename) s.vfs
  return ({ s with vfs },.file (.remove filename result) :: report .fileDeleted result s ++ prompt s)

/-- The variable stat of the command before it is set. -/
def unsetStat : FileStat := ⟨Vector.replicate fileNameSize 0,0,false⟩

def stat (args : Bytes) (s : State) : Option (State × List Call) := do
  let filename ← skipSpaces args
  let (result,stat) ← Vfs.stat (some filename) (some unsetStat) s.vfs
  let stat := stat.getD unsetStat
  let printed :=
    if result = .ok then
      [print "Name: ",.printString (some stat.name.toList),print "\nSize: "] ++ printUint stat.size ++
        [print " bytes\n"]
    else printFileResult result s
  return (s,.file (.stat filename result) :: printed ++ prompt s)

def run (args : Bytes) (s : State) : Option (State × List Call) := do
  let identifier ← skipSpaces args
  let launched ← App.launch (some identifier) s.apps
  let failed :=
    if launched.result = .errNotFound then [print "App not found.\n"]
    else if launched.result ≠ .ok then [print "App launch failed.\n"]
    else []
  return (s,launched.printed.map .printString ++ launched.entered.flatMap runEntry ++ failed ++ prompt s)

def lang (args : Bytes) (s : State) : Option (State × List Call) := do
  let name ← skipSpaces args
  let (known,language) ← I18n.setLanguageByName (some name) s.language
  let s := { s with language }
  let printed :=
    if known then
      if language = .zhCn then message .languageZh s else message .languageEn s
    else message .helpLang s
  return (s,printed :: prompt s)

def executeCommand (cmd : Bytes) (s : State) : Option (State × List Call) := do
  if ← isWord cmd "help" then
    return (s,[message .helpHeader s,message .helpCore s,message .helpFiles s,message .helpLang s,
      print " apps run <app-id>\n"] ++ prompt s)
  if ← isWord cmd "clear" then return (s,[.clearScreen,message .welcome s] ++ prompt s)
  if ← isWord cmd "about" then return (s,message .about s :: prompt s)
  if (← isWord cmd "sysmit") || (← isWord cmd "sysinfo") then
    return (s,[message .sysinfoHeader s,
      print "OS: XBTOS-LC Alpha 1029\nArchitecture: x86 protected mode\nCPU Vendor: ",
      .printString (some (vendor s.cpuid)),print "\n"] ++ prompt s)
  if ← isWord cmd "lst" then
    let path := literal "/" ++ [0]
    let printed ← Vfs.list (some path) s.vfs
    return (s,.file (.list path) :: printed.map .printChar ++ prompt s)
  if ← startsWith cmd (literal "touch " ++ [0]) then return ← touch (cmd.drop 5) s
  if ← startsWith cmd (literal "rdf " ++ [0]) then return ← rdf (cmd.drop 3) s
  if ← startsWith cmd (literal "rec " ++ [0]) then return ← record (cmd.drop 3) s
  if ← startsWith cmd (literal "append " ++ [0]) then return ← append (cmd.drop 6) s
  if ← startsWith cmd (literal "rm " ++ [0]) then return ← rm (cmd.drop 2) s
  if ← startsWith cmd (literal "stat " ++ [0]) then return ← stat (cmd.drop 4) s
  if ← isWord cmd "dirs" then return (s,message .currentPath s :: prompt s)
  if ← isWord cmd "apps" then
    return (s,[print "Installed apps:\n",print " - com.xbtos.demo\n"] ++ prompt s)
  if ← startsWith cmd (literal "run " ++ [0]) then return ← run (cmd.drop 3) s
  if ← startsWith cmd (literal "lang " ++ [0]) then return ← lang (cmd.drop 4) s
  return (s,[message .unknownCommand s,.printString (some cmd),print "\n"] ++ prompt s)

end Xbtos.Shell
