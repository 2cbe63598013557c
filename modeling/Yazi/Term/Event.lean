import Yazi.Base.Keyed
import Yazi.Shared.Decode
import Yazi.Shared.Text

/-!
What a terminal sends: keys, the mouse, pasted text, and the answers to what it was asked.
-/
namespace Yazi.Term
open Yazi.Base Yazi.Shared

/-- `ParseError` -/
inductive ParseError where
  | invalid
  | ignored
  | incomplete
  deriving DecidableEq

/-- Why a sequence is no event. -/
inductive Fault where
  | error (e : ParseError)
  | panic
  deriving DecidableEq

abbrev Parsed := Except Fault

/-- `bail!` -/
def bail {α : Type} : Parsed α := .error (.error .invalid)

/-- `ok_or(ParseError::Invalid)?` -/
def orInvalid {α : Type} : Option α → Parsed α
  | some a => .ok a
  | none => bail

/-- Code that is not in the repository: the table of upper-case characters, and base 64. -/
structure Library where
  isUppercase : Char → Bool
  /-- `STANDARD_PAD_INDIFFERENT.decode` -/
  decodePad : Bytes → Option Bytes
  /-- `STANDARD_NO_PAD_INDIFFERENT.decode` -/
  decodeNoPad : Bytes → Option Bytes

/-! ### Keys -/

/-- A set of bits. -/
structure Modifiers where
  bits : UInt8
  deriving DecidableEq

namespace Modifiers

def empty : Modifiers := ⟨0⟩
def shift : Modifiers := ⟨1⟩
def alt : Modifiers := ⟨2⟩
def control : Modifiers := ⟨4⟩

def union (a b : Modifiers) : Modifiers := ⟨a.bits ||| b.bits⟩

/-- Shift, alt, control, super, hyper and meta. -/
def fromBitsTruncate (mask : UInt8) : Modifiers := ⟨mask &&& 0x3f⟩

def forChar (lib : Library) (c : Char) : Modifiers := if lib.isUppercase c then shift else empty

end Modifiers

inductive KeyEventKind where
  | press
  | release
  | repeated
  deriving DecidableEq

/-- `KeyEventKind::from_vt_code` -/
def KeyEventKind.fromVtCode (code : Nat) : Parsed KeyEventKind :=
  match code with
  | 1 => .ok .press
  | 2 => .ok .repeated
  | 3 => .ok .release
  | _ => bail

structure KeyEventState where
  bits : UInt8
  deriving DecidableEq

namespace KeyEventState

def empty : KeyEventState := ⟨0⟩
def keypad : KeyEventState := ⟨1⟩
def capsLock : KeyEventState := ⟨2⟩
def numLock : KeyEventState := ⟨4⟩

def union (a b : KeyEventState) : KeyEventState := ⟨a.bits ||| b.bits⟩

def fromMask (mask : UInt8) : KeyEventState :=
  (if mask &&& 64 ≠ 0 then capsLock else empty).union (if mask &&& 128 ≠ 0 then numLock else empty)

end KeyEventState

inductive ModifierKeyCode where
  | leftShift | leftControl | leftAlt | leftSuper | leftHyper | leftMeta
  | rightShift | rightControl | rightAlt | rightSuper | rightHyper | rightMeta
  | isoLevel3Shift | isoLevel5Shift
  deriving DecidableEq

inductive MediaKeyCode where
  | play | pause | playPause | reverse | stop | fastForward | rewind | nextTrack | previousTrack
  | record | lowerVolume | raiseVolume | muteVolume
  deriving DecidableEq

inductive KeyCode where
  | char (c : Char)
  | enter | backspace | tab | escape | left | right | up | down | home | «end» | pageUp | pageDown
  | insert | delete | keypadBegin | capsLock | scrollLock | numLock | printScreen | pause | menu
  | null
  | fn (n : UInt8)
  | modifier (key : ModifierKeyCode)
  | media (key : MediaKeyCode)
  deriving DecidableEq

namespace KeyCode

def fromXtermModifier (final : UInt8) : Parsed KeyCode :=
  match Char.ofUInt8 final with
  | 'A' => .ok .up
  | 'B' => .ok .down
  | 'C' => .ok .right
  | 'D' => .ok .left
  | 'F' => .ok .«end»
  | 'H' => .ok .home
  | 'P' => .ok (.fn 1)
  | 'Q' => .ok (.fn 2)
  | 'R' => .ok (.fn 3)
  | 'S' => .ok (.fn 4)
  | _ => bail

/-- The codepoints from 57399 on. -/
def keypadKeys : List KeyCode :=
  [.char '0', .char '1', .char '2', .char '3', .char '4', .char '5', .char '6', .char '7',
    .char '8', .char '9', .char '.', .char '/', .char '*', .char '-', .char '+', .enter,
    .char '=', .char ',', .left, .right, .up, .down, .pageUp, .pageDown, .home, .«end», .insert,
    .delete, .keypadBegin]

/-- The codepoints from 57358 on. -/
def lockKeys : List KeyCode := [.capsLock, .scrollLock, .numLock, .printScreen, .pause, .menu]

/-- The codepoints from 57428 on. -/
def otherKeys : List KeyCode :=
  [.media .play, .media .pause, .media .playPause, .media .reverse, .media .stop,
    .media .fastForward, .media .rewind, .media .nextTrack, .media .previousTrack, .media .record,
    .media .lowerVolume, .media .raiseVolume, .media .muteVolume, .modifier .leftShift,
    .modifier .leftControl, .modifier .leftAlt, .modifier .leftSuper, .modifier .leftHyper,
    .modifier .leftMeta, .modifier .rightShift, .modifier .rightControl, .modifier .rightAlt,
    .modifier .rightSuper, .modifier .rightHyper, .modifier .rightMeta, .modifier .isoLevel3Shift,
    .modifier .isoLevel5Shift]

def fromKittyCodepoint (codepoint : Nat) : Option (KeyCode × KeyEventState) :=
  if 57399 ≤ codepoint ∧ codepoint ≤ 57427 then
    keypadKeys[codepoint - 57399]?.map fun key => (key, .keypad)
  else if 57376 ≤ codepoint ∧ codepoint ≤ 57398 then
    some (.fn (UInt8.ofNat (codepoint - 57363)), .empty)
  else if 57358 ≤ codepoint ∧ codepoint ≤ 57363 then
    lockKeys[codepoint - 57358]?.map fun key => (key, .empty)
  else if 57428 ≤ codepoint then otherKeys[codepoint - 57428]?.map fun key => (key, .empty)
  else none

def ofChar (c : Char) : KeyCode :=
  match c.toNat with
  | 0 => .null
  | 0x1b => .escape
  | 0x0d => .enter
  | 0x09 => .tab
  | 0x7f => .backspace
  | _ => .char c

def fromCodepoint (codepoint : Nat) : Parsed (KeyCode × KeyEventState) :=
  match fromKittyCodepoint codepoint with
  | some pair => .ok pair
  | none => (orInvalid (Utf8.charOf codepoint)).map fun c => (ofChar c, .empty)

end KeyCode

structure KeyEvent where
  code : KeyCode
  kind : KeyEventKind := .press
  modifiers : Modifiers := .empty
  shifted : Option Char := none
  basis : Option Char := none
  state : KeyEventState := .empty
  /-- The characters of the text. -/
  text : List Char := []
  deriving DecidableEq

/-- `KeyEvent::new` -/
def KeyEvent.make (code : KeyCode) (modifiers : Modifiers) : KeyEvent := { code, modifiers }

/-- `From<KeyCode>` -/
def KeyEvent.of (code : KeyCode) : KeyEvent := { code }

/-! ### The mouse -/

inductive MouseButton where
  | left | middle | right | back | forward
  deriving DecidableEq

inductive MouseEventKind where
  | down (button : MouseButton)
  | up (button : MouseButton)
  | drag (button : MouseButton)
  | moved | scrollDown | scrollUp | scrollLeft | scrollRight
  deriving DecidableEq

def MouseEventKind.ofButton (button : UInt8) (dragging : Bool) : Parsed MouseEventKind :=
  match button.toNat, dragging with
  | 0, false => .ok (.down .left)
  | 1, false => .ok (.down .middle)
  | 2, false => .ok (.down .right)
  | 8, false => .ok (.down .back)
  | 9, false => .ok (.down .forward)
  | 0, true => .ok (.drag .left)
  | 1, true => .ok (.drag .middle)
  | 2, true => .ok (.drag .right)
  | 3, false => .ok (.up .left)
  | 3, true | 4, true | 5, true => .ok .moved
  | 4, false => .ok .scrollUp
  | 5, false => .ok .scrollDown
  | 6, false => .ok .scrollLeft
  | 7, false => .ok .scrollRight
  | _, _ => bail

/-- The bits of `cb` are the button in the lowest and highest two, then shift, alt, control, and
whether the mouse is dragged. -/
def MouseEventKind.fromCb (cb : UInt8) : Parsed (MouseEventKind × Modifiers) :=
  let low : UInt8 := cb &&& 0x03
  let high : UInt8 := cb &&& 0xc0
  (ofButton (low ||| high >>> 4) (cb &&& 0x20 == 0x20)).map fun kind =>
    (kind,
      ((if cb &&& 0x04 = 0x04 then .shift else .empty : Modifiers).union
        (if cb &&& 0x08 = 0x08 then .alt else .empty)).union
        (if cb &&& 0x10 = 0x10 then .control else .empty))

structure MouseEvent where
  kind : MouseEventKind
  column : Nat
  row : Nat
  modifiers : Modifiers
  deriving DecidableEq

/-! ### Reports -/

inductive Report where
  | csiU (flags : Nat)
  | cursorBlink (blinks : Bool)
  | cursorShape (shape : UInt8)
  | da1 (attributes : List Nat)
  | xtVersion (version : Text)
  | cellPixelSize (width height : Nat)
  | backgroundColor (red green blue : Nat)
  | colorScheme (light : Bool)
  | kittyGraphics (id : Nat) (ok : Bool)
  | clipboard (supported : Bool)
  deriving DecidableEq

/-! ### Drag and drop -/

structure StateOsc72 where
  type : Option UInt8 := none
  x : Int := 0
  y : Int := 0
  op : UInt8 := 0
  payload : Bytes := []
  hasMore : Bool := false
  deriving DecidableEq

inductive DndOp where
  | copy | move | either
  deriving DecidableEq

def DndOp.fromRepr (op : UInt8) : Option DndOp :=
  match op.toNat with
  | 1 => some .copy
  | 2 => some .move
  | 3 => some .either
  | _ => none

inductive DndEvent where
  | dragOffer (x y : Nat)
  | dragAccept (idx : Nat)
  | dragChange (op : DndOp)
  | dragLand
  | dragEnd (canceled : Bool)
  | dragSend (idx : Nat)
  | dragError (idx : Nat) (name desc : Bytes)
  | dropEnter (x y : Nat) (op : DndOp) (mimes : Text)
  | dropLeave
  | dropReady (x y : Nat) (op : DndOp) (mimes : Text)
  | dropArrive (idx : Nat) (data : Bytes)
  | dropError (idx : Nat) (name desc : Bytes)
  deriving DecidableEq

namespace DndEvent

/-- `u32::try_from` -/
def unsigned (n : Int) : Option Nat := if 0 ≤ n then some n.toNat else none

/-- `parse_error` -/
def parseError (payload : Bytes) : Option (Bytes × Bytes) :=
  if Utf8.isUtf8 payload then
    match splitSeqOnce [0x3a] payload with
    | some (name, desc) => some (name, desc)
    | none => if payload = [] then none else some (payload, [])
  else none

def ended (s : StateOsc72) : Option DndEvent :=
  if s.x = 1 then (unsigned s.y).map .dragAccept
  else if s.x = 2 then (DndOp.fromRepr s.op).map .dragChange
  else if s.x = 3 then some .dragLand
  else if s.x = 4 then some (.dragEnd (s.y ≠ 0))
  else if s.x = 5 then (unsigned s.y).map .dragSend
  else none

/-- `DndEvent::from_state` -/
def fromState (lib : Library) (s : StateOsc72) : Option DndEvent :=
  match Char.ofUInt8 (s.type.getD 0) with
  | 'o' => do return .dragOffer (← unsigned s.x) (← unsigned s.y)
  | 'e' => ended s
  | 'E' =>
    if s.payload = text "OK" then none
    else do
      let (name, desc) ← parseError s.payload
      return .dragError (← unsigned s.y) name desc
  | 'm' =>
    if s.x = -1 ∧ s.y = -1 then some .dropLeave
    else do
      return .dropEnter (← unsigned s.x) (← unsigned s.y) (← DndOp.fromRepr s.op)
        (← Text.ofUtf8 s.payload)
  | 'M' => do
    return .dropReady (← unsigned s.x) (← unsigned s.y) (← DndOp.fromRepr s.op)
      (← Text.ofUtf8 s.payload)
  | 'r' => do return .dropArrive (← unsigned s.x) (← lib.decodeNoPad s.payload)
  | 'R' => do
    let (name, desc) ← parseError s.payload
    return .dropError (← unsigned s.x) name desc
  | _ => none

end DndEvent

/-! ### The clipboard -/

structure StateOsc5522 where
  write : Bool := false
  primary : Bool := false
  mimes : List Text := []
  payload : List Bytes := []
  pw : Text := default
  status : Bytes := []
  hasMore : Bool := false
  deriving DecidableEq

def StateOsc5522.len (s : StateOsc5522) : Nat :=
  s.pw.bytes.length + (s.mimes.map (·.bytes.length)).sum + (s.payload.map List.length).sum

/-- `ClipboardData`: of two payloads for a type the later one stays. -/
def ClipboardData.collect (pairs : List (Text × Bytes)) : Assoc Text Bytes :=
  pairs.foldl (fun data pair => data.insert pair.1 pair.2) []

inductive ClipboardEvent where
  | read (primary : Bool) (pw : Text) (data : Assoc Text Bytes)
  | readError (status : Bytes)
  | writeSuccess
  | writeError (status : Bytes)
  deriving DecidableEq

/-- `ClipboardEvent::from_state` -/
def ClipboardEvent.fromState (s : StateOsc5522) : Option ClipboardEvent :=
  if s.status = text "DONE" then
    some (if s.write then .writeSuccess
      else .read s.primary s.pw (ClipboardData.collect (s.mimes.zip s.payload)))
  else if s.status = [] then none
  else some (if s.write then .writeError s.status else .readError s.status)

inductive Event where
  | key (key : KeyEvent)
  | mouse (mouse : MouseEvent)
  | focusIn
  | focusOut
  | paste (text : Text)
  | dnd (event : DndEvent)
  | clipboard (event : ClipboardEvent)
  | report (report : Report)
  deriving DecidableEq

end Yazi.Term
