import Yazi.Base.Run
import Yazi.Term.Osc

/-!
The parser of what a terminal sends, one byte after the other.

The bytes of a sequence are gathered until its last one. A sequence that gets too long is thrown
away from the beginning, and what is left of it is discarded. Between two chunks of a sequence
the bytes are thrown away as well, while the parser stays inside it. A step that is `none` is a
panic.
-/
namespace Yazi.Term
open Yazi.Base Yazi.Shared

structure NonZeroU8 where
  val : Nat
  nonzero : val ≠ 0
  deriving DecidableEq

/-- `NonZeroU8::new` -/
def NonZeroU8.new (n : Nat) : Option NonZeroU8 :=
  if nonzero : n ≠ 0 then some ⟨n, nonzero⟩ else none

inductive State where
  | ground
  | esc
  | escO
  | csi
  | normalMouse
  | bracketedPaste
  | osc
  | osc72 (s : StateOsc72)
  | osc5522 (s : StateOsc5522)
  | oscSt
  | dcs
  | dcsSt
  | apc
  | apcSt
  /-- So many continuation bytes are needed. -/
  | utf8 (n : NonZeroU8)
  | altUtf8 (n : NonZeroU8)
  deriving DecidableEq

namespace State

def limit : State → Nat
  | csi => 4096
  | bracketedPaste => 2 ^ 24
  | osc | osc72 _ | osc5522 _ | oscSt | dcs | dcsSt | apc | apcSt => 2 ^ 20
  | ground | esc | escO | normalMouse | utf8 _ | altUtf8 _ => 2 ^ 64 - 1

/-- In nanoseconds. -/
def timeout : State → Option Nat
  | ground | bracketedPaste => none
  | esc => some 10000000
  | _ => some 1000000000

end State

structure Parser where
  state : State
  seq : Bytes
  events : List Event
  discard : Bool

/-- `utf8_char_width` -/
def charWidth (b : UInt8) : Nat :=
  if b ≤ 0x7f then 1
  else if 0xc2 ≤ b ∧ b ≤ 0xdf then 2
  else if 0xe0 ≤ b ∧ b ≤ 0xef then 3
  else if 0xf0 ≤ b ∧ b ≤ 0xf4 then 4
  else 0

/-- The key of a single byte, if it is one. -/
def parseGroundKey (lib : Library) (b : UInt8) : Option KeyEvent :=
  if b = 0x0d then some (.of .enter)
  else if b = 0x09 then some (.of .tab)
  else if b = 0x7f then some (.of .backspace)
  else if b = 0x00 then some (.make (.char ' ') .control)
  else if 0x01 ≤ b ∧ b ≤ 0x1a then some (.make (.char (Char.ofUInt8 (b - 0x01 + 0x61))) .control)
  else if 0x1c ≤ b ∧ b ≤ 0x1f then some (.make (.char (Char.ofUInt8 (b - 0x1c + 0x34))) .control)
  else if 0x20 ≤ b ∧ b ≤ 0x7e then
    some (.make (.char (Char.ofUInt8 b)) (.forChar lib (Char.ofUInt8 b)))
  else none

/-- The character that a text of one consists of. -/
def onlyChar (s : Bytes) : Option Char := if Utf8.isUtf8 s then Utf8.firstChar s else none

def pasteStart : Bytes := 0x1b :: text "[200~"

def pasteEnd : Bytes := 0x1b :: text "[201~"

/-- The content is between the start and the end. -/
def parsePaste (seq : Bytes) : Parsed Event := do
  let content ← subslice seq 6 (← minus seq.length 6)
  .ok (.paste (Text.fromUtf8Lossy content))

def osc72Start : Bytes := 0x1b :: text "]72;"

def osc5522Start : Bytes := 0x1b :: text "]5522;"

namespace Parser

def make : Parser := ⟨.ground, [], [], false⟩

def reset (p : Parser) : Parser := { p with state := .ground, seq := [], discard := false }

def drain (p : Parser) : Parser := { p.reset with events := [] }

def emit (p : Parser) (event : Event) : Parser := { p with events := p.events ++ [event] }

def emitKey (p : Parser) (key : KeyEvent) : Parser := p.emit (.key key)

def push (p : Parser) (b : UInt8) : Parser := { p with seq := p.seq ++ [b] }

/-- `Parser::expire`, when so much time has passed since the last byte. -/
def expire (elapsed : Nat) (p : Parser) : Parser :=
  match p.state.timeout with
  | none => p
  | some timeout =>
    if elapsed < timeout then p
    else if p.state = .esc then (p.emitKey (.of .escape)).reset
    else p.reset

/-- The sequence is over, with an event or without. -/
def finish (p : Parser) : Parsed Event → Option Parser
  | .ok event => some (p.emit event).reset
  | .error (.error _) => some p.reset
  | .error .panic => none

/-- `Parser::finish_report` -/
def finishReport (p : Parser) (parse : Bytes → Parsed Event) : Option Parser :=
  if p.discard then some p.reset else p.finish (parse p.seq)

/-! ### Keys and characters -/

def onGround (lib : Library) (p : Parser) (b : UInt8) : Option Parser :=
  if b = 0x1b then some { p with seq := [0x1b], state := .esc }
  else match parseGroundKey lib b with
    | some key => some (p.emitKey key)
    | none =>
      if 2 ≤ charWidth b ∧ charWidth b ≤ 4 then
        (NonZeroU8.new (charWidth b - 1)).map fun n => { p with seq := [b], state := .utf8 n }
      else some p

def onEsc (lib : Library) (p : Parser) (b : UInt8) : Option Parser :=
  let p := p.push b
  match Char.ofUInt8 b with
  | '[' => some { p with state := .csi }
  | ']' => some { p with state := .osc }
  | 'P' => some { p with state := .dcs }
  | '_' => some { p with state := .apc }
  | 'O' => some { p with state := .escO }
  | _ =>
    -- The second escape is consumed with the first.
    if b = 0x1b then some (p.emitKey (.of .escape)).reset
    else match parseGroundKey lib b with
      | some key => some (p.emitKey { key with modifiers := key.modifiers.union .alt }).reset
      | none =>
        if 2 ≤ charWidth b ∧ charWidth b ≤ 4 then
          (NonZeroU8.new (charWidth b - 1)).map fun n => { p with state := .altUtf8 n }
        else some p.reset

def escOKey (b : UInt8) : Option KeyCode :=
  match Char.ofUInt8 b with
  | 'A' => some .up
  | 'B' => some .down
  | 'C' => some .right
  | 'D' => some .left
  | 'F' => some .«end»
  | 'H' => some .home
  | _ => if 0x50 ≤ b ∧ b ≤ 0x53 then some (.fn (1 + b - 0x50)) else none

def onEscO (p : Parser) (b : UInt8) : Option Parser :=
  let p := p.push b
  match escOKey b with
  | some key => some (p.emitKey (.of key)).reset
  | none => some p.reset

def onUtf8 (lib : Library) (p : Parser) (b : UInt8) (remaining : NonZeroU8) : Option Parser :=
  if b &&& 0xc0 ≠ 0x80 then p.reset.onGround lib b
  else
    let p := p.push b
    if remaining.val ≠ 1 then
      (NonZeroU8.new (remaining.val - 1)).map fun n => { p with state := .utf8 n }
    else match onlyChar p.seq with
      | some c => some (p.emitKey (.make (.char c) (.forChar lib c))).reset
      | none => some p.reset

def onAltUtf8 (lib : Library) (p : Parser) (b : UInt8) (remaining : NonZeroU8) : Option Parser :=
  if b &&& 0xc0 ≠ 0x80 then p.reset.onGround lib b
  else
    let p := p.push b
    if remaining.val ≠ 1 then
      (NonZeroU8.new (remaining.val - 1)).map fun n => { p with state := .altUtf8 n }
    else match subslice p.seq 1 p.seq.length with
      | .error _ => none
      | .ok s =>
        match onlyChar s with
        | some c => some (p.emitKey (.make (.char c) (Modifiers.alt.union (.forChar lib c)))).reset
        | none => some p.reset

/-! ### CSI -/

def onCsi (p : Parser) (b : UInt8) : Option Parser :=
  let p := p.push b
  if ¬(0x40 ≤ b ∧ b ≤ 0x7e) then some p
  -- The Linux console sends `ESC [ [ x` for a function key.
  else if b = 0x5b ∧ p.seq.length = 3 then some p
  else if p.discard then some p.reset
  else if b = 0x4d ∧ p.seq.length = 3 then some { p with state := .normalMouse }
  else if p.seq = pasteStart then some { p with state := .bracketedPaste }
  else p.finish (parseCsi p.seq)

def onNormalMouse (p : Parser) (b : UInt8) : Option Parser :=
  let p := p.push b
  if p.seq.length < 6 then some p else p.finish (parseCsiNormalMouse p.seq)

def onBracketedPaste (p : Parser) (b : UInt8) : Option Parser :=
  let p := p.push b
  if ¬ pasteEnd.isSuffixOf p.seq then some p
  else if p.discard then some p.reset
  else p.finish (parsePaste p.seq)

/-! ### Strings -/

def onOsc (p : Parser) (b : UInt8) : Option Parser :=
  let p := p.push b
  match p.state with
  | .osc =>
    if b = bel then p.finishReport parseOscReport
    else if osc72Start.isPrefixOf p.seq then some { p with state := .osc72 {} }
    else if osc5522Start.isPrefixOf p.seq then some { p with state := .osc5522 {} }
    else if b = 0x1b then some { p with state := .oscSt }
    else some p
  | .oscSt =>
    if b = 0x5c then p.finishReport parseOscReport
    else if b = 0x1b then some p
    else some { p with state := .osc }
  | _ => none

def onOsc72 (lib : Library) (p : Parser) (s : StateOsc72) (b : UInt8) : Option Parser :=
  let p := p.push b
  if ¬ terminator.isSuffixOf p.seq then some p
  else if p.discard then some p.reset
  else match parseOsc72 p.seq s with
    | .error .panic => none
    | .error (.error _) => some p.reset
    | .ok s =>
      if s.hasMore then some { p with seq := [], state := .osc72 s }
      else match DndEvent.fromState lib s with
        | some event => some (p.emit (.dnd event)).reset
        | none => some p.reset

def onOsc5522 (lib : Library) (p : Parser) (s : StateOsc5522) (b : UInt8) : Option Parser :=
  let p := p.push b
  if ¬ terminator.isSuffixOf p.seq ∧ b ≠ bel then some p
  else if p.discard then some p.reset
  else match parseOsc5522 lib p.seq s with
    | .error .panic => none
    | .error (.error _) => some p.reset
    | .ok s =>
      if s.hasMore then some { p with seq := [], state := .osc5522 s }
      else match ClipboardEvent.fromState s with
        | some event => some (p.emit (.clipboard event)).reset
        | none => some p.reset

/-- A string that only `ESC \` ends, with the states inside it and behind its last escape. -/
def onString (p : Parser) (b : UInt8) (inside behind : State) (parse : Bytes → Parsed Event) :
    Option Parser :=
  let p := p.push b
  if p.state = inside then
    if b = 0x1b then some { p with state := behind } else some p
  else if p.state = behind then
    if b = 0x5c then p.finishReport parse
    else if b = 0x1b then some p
    else some { p with state := inside }
  else none

def onDcs (p : Parser) (b : UInt8) : Option Parser := p.onString b .dcs .dcsSt parseDcsReport

def onApc (p : Parser) (b : UInt8) : Option Parser := p.onString b .apc .apcSt parseApcReport

/-! ### A step -/

/-- A sequence that is too long is marked for discard. -/
def clip (p : Parser) : Parser :=
  if p.state.limit ≤ p.seq.length then { p with seq := [], discard := true } else p

def dispatch (lib : Library) (p : Parser) (b : UInt8) : Option Parser :=
  match p.state with
  | .ground => p.onGround lib b
  | .esc => p.onEsc lib b
  | .escO => p.onEscO b
  | .csi => p.onCsi b
  | .normalMouse => p.onNormalMouse b
  | .bracketedPaste => p.onBracketedPaste b
  | .osc => p.onOsc b
  | .oscSt => p.onOsc b
  | .osc72 s => p.onOsc72 lib s b
  | .osc5522 s => p.onOsc5522 lib s b
  | .dcs => p.onDcs b
  | .dcsSt => p.onDcs b
  | .apc => p.onApc b
  | .apcSt => p.onApc b
  | .utf8 n => p.onUtf8 lib b n
  | .altUtf8 n => p.onAltUtf8 lib b n

/-- `Parser::step` -/
def step (lib : Library) (p : Parser) (b : UInt8) : Option Parser := p.clip.dispatch lib b

/-- `Parser::parse` -/
def parse (lib : Library) (p : Parser) (bytes : Bytes) : Option Parser := exec (step lib) p bytes

/-- What can happen to a parser next. -/
inductive Input where
  | byte (b : UInt8)
  | expire (elapsed : Nat)
  | drain

def input (lib : Library) (p : Parser) : Input → Option Parser
  | .byte b => p.step lib b
  | .expire elapsed => some (p.expire elapsed)
  | .drain => some p.drain

/-- What a parser is asked to do. -/
inductive Call where
  | parse (bytes : Bytes)
  | expire (elapsed : Nat)
  | drain

def call (lib : Library) (p : Parser) : Call → Option Parser
  | .parse bytes => p.parse lib bytes
  | .expire elapsed => some (p.expire elapsed)
  | .drain => some p.drain

def Call.inputs : Call → List Input
  | .parse bytes => bytes.map .byte
  | .expire elapsed => [.expire elapsed]
  | .drain => [.drain]

theorem parse_eq (lib : Library) (p : Parser) (bytes : Bytes) :
    p.parse lib bytes = exec (input lib) p (bytes.map .byte) := by
  rw [parse]
  induction bytes generalizing p with
  | nil => rfl
  | cons b bytes ih => exact Option.bind_congr fun next _ => ih next

/-- Calls do what their bytes do one by one. -/
theorem exec_call (lib : Library) (p : Parser) (calls : List Call) :
    exec (call lib) p calls = exec (input lib) p (calls.flatMap Call.inputs) := by
  induction calls generalizing p with
  | nil => rfl
  | cons c calls ih =>
    have first : p.call lib c = exec (input lib) p c.inputs := by
      cases c with
      | parse bytes => exact parse_eq lib p bytes
      | expire elapsed => rfl
      | drain => rfl
    rw [List.flatMap_cons, exec_append, exec, first]
    exact Option.bind_congr fun next _ => ih next

end Parser

end Yazi.Term
