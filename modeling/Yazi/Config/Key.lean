import Yazi.Term.Event

/-!
Keys of the keymap: what a notation is read as, and what a key is displayed as.

What is displayed is read as the same key. Shift is written only for a character that does not
imply it, and a character that is not upper case was made so on reading, where it can be.
-/
namespace Yazi.Config
open Term

structure Key where
  code : KeyCode := .null
  shift : Bool := false
  ctrl : Bool := false
  alt : Bool := false
  super_ : Bool := false
  deriving DecidableEq

/-- Why a notation is not a key. -/
inductive KeyError where
  | emptyKey
  | unknownKey (s : List Char)
  deriving DecidableEq

def KeyError.message : KeyError → String
  | emptyKey => "empty key"
  | unknownKey s => "unknown key: " ++ String.ofList s

/-- `str::split_inclusive` at a dash. -/
def splitInclusive : List Char → List (List Char)
  | [] => []
  | c :: s =>
    if c = '-' then [c] :: splitInclusive s
    else
      match splitInclusive s with
      | [] => [[c]]
      | piece :: pieces => (c :: piece) :: pieces

/-- The named keys, with their names in lower case. -/
def names : List (List Char × KeyCode) :=
  [("space".toList, .char ' '), ("backspace".toList, .backspace), ("enter".toList, .enter),
    ("left".toList, .left), ("right".toList, .right), ("up".toList, .up), ("down".toList, .down),
    ("home".toList, .home), ("end".toList, .«end»), ("pageup".toList, .pageUp),
    ("pagedown".toList, .pageDown), ("tab".toList, .tab), ("delete".toList, .delete),
    ("insert".toList, .insert), ("f1".toList, .fn 1), ("f2".toList, .fn 2), ("f3".toList, .fn 3),
    ("f4".toList, .fn 4), ("f5".toList, .fn 5), ("f6".toList, .fn 6), ("f7".toList, .fn 7),
    ("f8".toList, .fn 8), ("f9".toList, .fn 9), ("f10".toList, .fn 10), ("f11".toList, .fn 11),
    ("f12".toList, .fn 12), ("f13".toList, .fn 13), ("f14".toList, .fn 14),
    ("f15".toList, .fn 15), ("f16".toList, .fn 16), ("f17".toList, .fn 17),
    ("f18".toList, .fn 18), ("f19".toList, .fn 19), ("esc".toList, .escape)]

def codeOf (name : List Char) : Option KeyCode := (names.find? (·.1 = name)).map (·.2)

/-- `char::is_uppercase`, with the table of the characters beyond ASCII. -/
def isUppercase (table : Char → Bool) (c : Char) : Bool :=
  if c.val ≤ 0x7f then c.isUpper else table c

namespace Key
variable (table : Char → Bool)

def impliesShift : KeyCode → Bool
  | .char c => isUppercase table c
  | _ => false

/-- The loop of `Key::from_str` over the pieces between the brackets. -/
def read (key : Key) : List (List Char) → Except KeyError Key
  | [] => .ok key
  | next :: rest =>
    let name := next.map Char.toLower
    if name = ['s', '-'] then read { key with shift := true } rest
    else if name = ['c', '-'] then read { key with ctrl := true } rest
    else if name = ['a', '-'] then read { key with alt := true } rest
    else if name = ['d', '-'] then read { key with super_ := true } rest
    else
      match codeOf name with
      | some code => read { key with code } rest
      | none =>
        match next, rest with
        | c :: _, [] =>
          let shift := key.shift || isUppercase table c
          .ok { key with shift, code := .char (if shift then c.toUpper else c) }
        | s, _ => .error (.unknownKey s)

/-- `Key::from_str` -/
def fromStr (s : List Char) : Except KeyError Key :=
  match s with
  | [] => .error .emptyKey
  | c :: _ =>
    if ¬(c = '<' ∧ s.getLast? = some '>') then .ok { code := .char c, shift := isUppercase table c }
    else
      match read table {} (splitInclusive (s.drop 1).dropLast) with
      | .error e => .error e
      | .ok key => if key.code = .null then .error .emptyKey else .ok key

/-- `Key::plain` -/
def plain (key : Key) : Option Char :=
  if key.ctrl || key.alt || key.super_ then none
  else if key.shift && !impliesShift table key.code then none
  else
    match key.code with
    | .char c => some c
    | _ => none

/-- The named keys, as they are displayed. -/
def labels : List (KeyCode × List Char) :=
  [(.backspace, "Backspace".toList), (.enter, "Enter".toList), (.left, "Left".toList),
    (.right, "Right".toList), (.up, "Up".toList), (.down, "Down".toList), (.home, "Home".toList),
    (.«end», "End".toList), (.pageUp, "PageUp".toList), (.pageDown, "PageDown".toList),
    (.tab, "Tab".toList), (.delete, "Delete".toList), (.insert, "Insert".toList),
    (.fn 1, "F1".toList), (.fn 2, "F2".toList), (.fn 3, "F3".toList), (.fn 4, "F4".toList),
    (.fn 5, "F5".toList), (.fn 6, "F6".toList), (.fn 7, "F7".toList), (.fn 8, "F8".toList),
    (.fn 9, "F9".toList), (.fn 10, "F10".toList), (.fn 11, "F11".toList),
    (.fn 12, "F12".toList), (.fn 13, "F13".toList), (.fn 14, "F14".toList),
    (.fn 15, "F15".toList), (.fn 16, "F16".toList), (.fn 17, "F17".toList),
    (.fn 18, "F18".toList), (.fn 19, "F19".toList), (.escape, "Esc".toList)]

/-- The name of a code between the brackets. -/
def codeText : KeyCode → List Char
  | .char c => if c = ' ' then "Space".toList else [c]
  | code => ((labels.find? (·.1 = code)).map (·.2)).getD "Unknown".toList

/-- The modifiers before it. -/
def modifierText (key : Key) : List Char :=
  (if key.super_ then ['D', '-'] else []) ++ (if key.ctrl then ['C', '-'] else []) ++
    (if key.alt then ['A', '-'] else []) ++
    if key.shift && !impliesShift table key.code then ['S', '-'] else []

/-- `Key::fmt` -/
def display (key : Key) : List Char :=
  match key.plain table with
  | some c => if c = ' ' then "<Space>".toList else [c]
  | none => ['<'] ++ key.modifierText table ++ codeText key.code ++ ['>']

end Key
end Yazi.Config
