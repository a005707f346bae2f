import Xbtos.EditorKeyboard
import Xbtos.ConsoleRefinement
import Xbtos.Semantics.Session

/-! What the whole kernel is for: keys edit a draft, a line entered is answered by a session, and
all of it is seen on the page of a terminal without a bottom. -/
namespace Xbtos.Semantics
open Strings Semantics.LineEditor Semantics.Terminal
open Session (Mark chars)
open Editor (decode typedBy lineSize historySize)
open Console (newline space)

def Session.Mark.draw : Mark → Page UInt8 → Page UInt8
  | .char c, p => Console.type c p
  | .clear, _ => Page.start space

def Session.drawAll (marks : List Mark) (p : Page UInt8) : Page UInt8 :=
  marks.foldl (fun p mark => mark.draw p) p

structure System where
  draft : Draft UInt8
  shift : Bool
  extended : Bool
  session : Session.State
  page : Page UInt8

namespace System

/-- What is told about a line that is entered; an empty one is only prompted for again. -/
def entered (t : System) : List Mark × Session.State :=
  if t.draft.line = [] then (chars (Session.message .prompt t.session.language),t.session)
  else Session.reply (Session.parse t.draft.line) t.session

def enter (t : System) : System :=
  { t with
    draft := t.draft.enter historySize
    session := t.entered.2
    page := Session.drawAll (.char newline :: t.entered.1) t.page }

def edit (key : Key UInt8) (t : System) : System :=
  { t with
    draft := t.draft.press lineSize historySize key
    page := Session.drawAll (chars (typedBy key t.draft)) t.page }

def key : Key UInt8 → System → System
  | .enter, t => t.enter
  | key, t => t.edit key

def press (t : System) (scancode : UInt8) : System :=
  let (pressed,shift,extended) := decode scancode t.shift t.extended
  { t.key pressed with shift, extended }

/-- What is seen before the first key. -/
def greeting (language : I18n.Language) : Bytes :=
  literal "128/128MB --- MEM  OK\ni386-X86  --- Heap OK\nHAL       --- Ready\n" ++
    literal "VFS       --- Ready\n" ++ Session.message .welcome language ++
    Session.message .prompt language

def start (vendor : Bytes) : System where
  draft := .start
  shift := false
  extended := false
  session := ⟨[],I18n.loadedLanguage,vendor⟩
  page := Session.drawAll (chars (greeting I18n.loadedLanguage)) (Page.start space)

def pressAll (scancodes : List UInt8) (t : System) : System := scancodes.foldl press t

def keyAll (keys : List (Key UInt8)) (t : System) : System := keys.foldl (fun t pressed => t.key pressed) t

/-- A line that is typed on an empty one: it is shown, and what it asks for is answered below it. -/
def ask (t : System) (line : Bytes) : System :=
  let (told,session) := Session.reply (Session.parse line) t.session
  { t with
    draft := ⟨[],(t.draft.past ++ [line]).rtake historySize,none⟩
    session
    page := Session.drawAll (chars (line ++ [newline]) ++ told) t.page }

def askAll (lines : List Bytes) (t : System) : System := lines.foldl ask t

end System

end Xbtos.Semantics
