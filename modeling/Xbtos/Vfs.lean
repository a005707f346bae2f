import Xbtos.Strings

/-! The file system of kernel/fs/vfs.cpp. A call with no result is one with undefined
behaviour: it reads or writes outside an object. A null pointer is none. -/
namespace Xbtos.Vfs
open Foundation.ByteMemory Foundation.Buffer Strings

def maxFiles : Nat := 64
def fileNameSize : Nat := 32
def fileDataSize : Nat := 1024
def pathSize : Nat := 64

inductive FileResult
  | ok | errNotFound | errExists | errFull | errInvalidName | errTooLarge
deriving DecidableEq

structure FileStat where
  name : Vector UInt8 fileNameSize
  size : Nat
  isDirectory : Bool
deriving DecidableEq

structure File where
  name : Vector UInt8 fileNameSize
  data : Vector UInt8 fileDataSize
  size : Nat
  isUsed : Bool
deriving DecidableEq

structure FileSystem where
  files : Vector File maxFiles
  fileCount : Nat
  currentPath : Vector UInt8 pathSize

/-- A file after kmemset(file, 0, sizeof(File)). -/
def zeroFile : File :=
  ⟨Vector.replicate fileNameSize 0,Vector.replicate fileDataSize 0,0,false⟩

def slash : UInt8 := 47
def backslash : UInt8 := 92
def dot : UInt8 := 46

def isPathSeparator (c : UInt8) : Bool := c = slash ∨ c = backslash

/-- FileSystem::init, with what it prints. -/
def init (s : FileSystem) : FileSystem × Bytes :=
  let currentPath := (s.currentPath.set 0 slash (by decide)).set 1 0 (by decide)
  (⟨Vector.replicate maxFiles zeroFile,0,currentPath⟩,literal "VFS Initialized.\n")

def skipSeparators : Bytes → Option Bytes
  | [] => none
  | c :: path => if isPathSeparator c then skipSeparators path else some (c :: path)

/-- The loop of normalize_name from path[len] on; outName is out_name[0] to out_name[len-1]. -/
def copyName : Bytes → Bytes → Option (FileResult × Bytes)
  | [], _ => none
  | c :: path, outName =>
    if c = 0 then do return (.ok,← push fileNameSize outName 0)
    else if isPathSeparator c then some (.errInvalidName,outName)
    else if fileNameSize - 1 ≤ outName.length then some (.errInvalidName,outName)
    else do copyName path (← push fileNameSize outName c)

/-- The result, and what was written to out_name. -/
def normalizeName : Option Bytes → Option (FileResult × Bytes)
  | none => some (.errInvalidName,[])
  | some path => do
    if (← path[0]?) = 0 then return (.errInvalidName,[])
    let path ← skipSeparators path
    let first ← path[0]?
    if first = 0 ∨ first = dot then return (.errInvalidName,[])
    copyName path []

/-- The search of find and of remove, from slot i with r iterations left. -/
def findFrom (s : FileSystem) (name : Bytes) : Nat → Nat → Option (Option Nat)
  | 0, _ => some none
  | r+1, i => do
    let file ← s.files[i]?
    if file.isUsed then
      if (← kstrcmp file.name.toList name) = 0 then return some i
      else findFrom s name r (i+1)
    else findFrom s name r (i+1)

/-- The slot of the file; both overloads of find. -/
def find (path : Option Bytes) (s : FileSystem) : Option (Option Nat) := do
  let (normalized,name) ← normalizeName path
  if normalized ≠ .ok then return none
  findFrom s name s.fileCount 0

def allocateSlot (s : FileSystem) : Option Nat × FileSystem :=
  if maxFiles ≤ s.fileCount then (none,s)
  else (some s.fileCount,{ s with fileCount := s.fileCount + 1 })

def create (path : Option Bytes) (s : FileSystem) : Option (FileResult × FileSystem) := do
  let (normalized,name) ← normalizeName path
  if normalized ≠ .ok then return (normalized,s)
  if (← find (some name) s).isSome then return (.errExists,s)
  match allocateSlot s with
  | (none,s) => return (.errFull,s)
  | (some slot,s) =>
    let name ← kstrcpy zeroFile.name 0 name
    let files ← store s.files slot { zeroFile with name, isUsed := true }
    return (.ok,{ s with files })

/-- The part of write after the file is found. -/
def writeSlot (slot : Nat) (content : Bytes) (s : FileSystem) :
    Option (FileResult × FileSystem) := do
  let file ← s.files[slot]?
  let len ← kstrlen (some content)
  if fileDataSize ≤ len then return (.errTooLarge,s)
  let data ← kmemcpy file.data 0 content len
  let data ← store data len 0
  let files ← store s.files slot { file with data, size := len }
  return (.ok,{ s with files })

def write (path content : Option Bytes) (s : FileSystem) : Option (FileResult × FileSystem) := do
  let content := content.getD [0]
  match ← find path s with
  | some slot => writeSlot slot content s
  | none =>
    let (created,s) ← create path s
    if created ≠ .ok ∧ created ≠ .errExists then return (created,s)
    match ← find path s with
    | some slot => writeSlot slot content s
    | none => return (.errNotFound,s)

/-- The part of append after the file is found. -/
def appendSlot (slot : Nat) (content : Bytes) (s : FileSystem) :
    Option (FileResult × FileSystem) := do
  let file ← s.files[slot]?
  let addLen ← kstrlen (some content)
  if fileDataSize ≤ wrap (file.size + addLen) then return (.errTooLarge,s)
  let data ← kmemcpy file.data file.size content addLen
  let size := wrap (file.size + addLen)
  let data ← store data size 0
  let files ← store s.files slot { file with data, size }
  return (.ok,{ s with files })

def append (path content : Option Bytes) (s : FileSystem) : Option (FileResult × FileSystem) :=
  match content with
  | none => some (.ok,s)
  | some content => do
    match ← find path s with
    | some slot => appendSlot slot content s
    | none =>
      let (created,s) ← create path s
      if created ≠ .ok then return (created,s)
      match ← find path s with
      | some slot => appendSlot slot content s
      | none => return (.errNotFound,s)

def read (path : Option Bytes) (s : FileSystem) : Option (Option Bytes) := do
  match ← find path s with
  | some slot => return some (← s.files[slot]?).data.toList
  | none => return none

/-- FileSystem::exists -/
def fileExists (path : Option Bytes) (s : FileSystem) : Option Bool := do
  return (← find path s).isSome

/-- The result, and out_stat afterwards. -/
def stat (path : Option Bytes) (outStat : Option FileStat) (s : FileSystem) :
    Option (FileResult × Option FileStat) :=
  match outStat with
  | none => some (.errInvalidName,none)
  | some outStat => do
    match ← find path s with
    | none => return (.errNotFound,some outStat)
    | some slot =>
      let file ← s.files[slot]?
      let name ← kstrcpy (Vector.replicate fileNameSize 0) 0 file.name.toList
      return (.ok,some ⟨name,file.size,false⟩)

/-- The loop of list that takes the digits of size, with r places left in reversed. -/
def reverseDigits : Nat → Nat → Bytes → Bytes
  | 0, _, reversed => reversed
  | r+1, size, reversed =>
    if 0 < size then reverseDigits r (size / 10) (reversed ++ [UInt8.ofNat (48 + size % 10)])
    else reversed

def sizeText (size : Nat) : Option Bytes := do
  let text ← if size = 0 then push 12 [] 48 else pushAll 12 [] (reverseDigits 12 size []).reverse
  push 12 text 0

/-- What list prints for one file. -/
def listFile (file : File) : Option Bytes := do
  let name ← printString file.name.toList
  let size ← printString (← sizeText file.size)
  return literal " - " ++ name ++ literal "  " ++ size ++ literal " bytes\n"

/-- The loop of list from slot i with r iterations left. -/
def listFrom (s : FileSystem) : Nat → Nat → Bool → Bytes → Option (Bool × Bytes)
  | 0, _, found, output => some (found,output)
  | r+1, i, found, output => do
    let file ← s.files[i]?
    if file.isUsed then listFrom s r (i+1) true (output ++ (← listFile file))
    else listFrom s r (i+1) found output

/-- What list prints; it ignores its path. -/
def list (_path : Option Bytes) (s : FileSystem) : Option Bytes := do
  let (found,output) ← listFrom s s.fileCount 0 false []
  return if found then output else output ++ literal " (empty)\n"

/-- The body of the loop of remove for the file in slot i. -/
def removeSlot (i : Nat) (s : FileSystem) : Option FileSystem := do
  let files ← store s.files i zeroFile
  let last := s.fileCount - 1
  if i ≠ last then
    let files ← store files i (← files[last]?)
    let files ← store files last zeroFile
    return { s with files, fileCount := last }
  else return { s with files, fileCount := last }

def remove (path : Option Bytes) (s : FileSystem) : Option (FileResult × FileSystem) := do
  let (normalized,name) ← normalizeName path
  if normalized ≠ .ok then return (normalized,s)
  match ← findFrom s name s.fileCount 0 with
  | some i => return (.ok,← removeSlot i s)
  | none => return (.errNotFound,s)

def pwd (s : FileSystem) : Bytes := s.currentPath.toList

end Xbtos.Vfs
