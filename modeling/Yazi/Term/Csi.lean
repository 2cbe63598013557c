import Yazi.Term.Event

/-!
CSI sequences, and the reports among them.

What is sliced or indexed out of range is a panic. A text is parsed as the bytes it has, once
these are known to be UTF-8: it is only ever split at ASCII characters.
-/
namespace Yazi.Term
open Yazi.Base Yazi.Shared

/-! ### Slices and numbers -/

/-- `usize` subtraction. -/
def minus (a b : Nat) : Parsed Nat := if b ≤ a then .ok (a - b) else .error .panic

/-- `seq[i]` -/
def index (seq : Bytes) (i : Nat) : Parsed UInt8 :=
  match seq[i]? with
  | some b => .ok b
  | none => .error .panic

/-- `seq[start..stop]` -/
def subslice (seq : Bytes) (start stop : Nat) : Parsed Bytes :=
  if start ≤ stop ∧ stop ≤ seq.length then .ok ((seq.take stop).drop start) else .error .panic

/-- `str::from_utf8(s)?` -/
def utf8 (s : Bytes) : Parsed Bytes := if Utf8.isUtf8 s then .ok s else bail

/-- `str::parse` for an unsigned integer of so many bits. -/
def parseUint (bits : Nat) (s : Bytes) : Parsed Nat :=
  match Decimal.read s with
  | .ok n => if n < 2 ^ bits then .ok n else bail
  | .error _ => bail

/-- `str::parse` for an `i32`. -/
def parseI32 (s : Bytes) : Parsed Int :=
  match s with
  | 0x2d :: digits => do
    let n ← parseUint 32 digits
    if digits.head? = some 0x2b ∨ 2 ^ 31 < n then bail else .ok (-(n : Int))
  | _ => Int.ofNat <$> parseUint 31 s

/-- `iter.next().ok_or(ParseError::Invalid)?` -/
def next (parts : List Bytes) (i : Nat) : Parsed Bytes := orInvalid parts[i]?

/-- `parse_next` -/
def parseNext (bits : Nat) (parts : List Bytes) (i : Nat) : Parsed Nat :=
  next parts i >>= parseUint bits

/-- `checked_sub(n).ok_or(ParseError::Invalid)?` -/
def checkedSub (n a : Nat) : Parsed Nat := if n ≤ a then .ok (a - n) else bail

/-! ### Modifiers and characters -/

structure Mks where
  modifiers : Modifiers
  kind : KeyEventKind
  state : KeyEventState

def parseKind (kind : Bytes) : Parsed KeyEventKind :=
  (if kind = [] then .ok 1 else parseUint 8 kind) >>= KeyEventKind.fromVtCode

/-- The number is one more than the mask, which is a byte. -/
def parseMask (code : Bytes) : Parsed UInt8 := do
  let mask ← parseUint 16 (if code = [] then text "1" else code) >>= checkedSub 1
  if mask < 256 then .ok (UInt8.ofNat mask) else bail

def parseMks (s : Bytes) : Parsed Mks := do
  let (code, kind) := (splitSeqOnce [0x3a] s).getD (s, [])
  let kind ← parseKind kind
  let mask ← parseMask code
  .ok ⟨.fromBitsTruncate mask, kind, .fromMask mask⟩

def parseChar : Option Bytes → Parsed (Option Char)
  | none => .ok none
  | some [] => .ok none
  | some s => do
    let c ← parseUint 32 s >>= fun n => orInvalid (Utf8.charOf n)
    .ok (some c)

/-- `char::is_control` -/
def isControl (c : Char) : Bool := c.toNat ≤ 0x1f || 0x7f ≤ c.toNat && c.toNat ≤ 0x9f

/-- Invalid and control characters are left out. -/
def parseText (s : Bytes) : List Char :=
  ((s.splitOn 0x3a).filterMap fun codepoint =>
    (parseUint 32 codepoint).toOption.bind Utf8.charOf).filter fun c => !isControl c

/-! ### Keys -/

/-- `CSI codepoint[:shifted[:basis]] ; modifiers[:kind] ; text u` -/
def parseCsiUKey (seq : Bytes) : Parsed Event := do
  let s ← subslice seq 2 (← minus seq.length 1) >>= utf8
  let parts := splitn 3 0x3b s
  let codepoints ← (splitn 3 0x3a ·) <$> next parts 0
  let (code, state) ← parseNext 32 codepoints 0 >>= KeyCode.fromCodepoint
  let shifted ← parseChar codepoints[1]?
  let basis ← parseChar codepoints[2]?
  let mks ← parseMks (parts[1]?.getD [])
  .ok (.key
    { code, shifted, basis
      modifiers := mks.modifiers
      kind := mks.kind
      state := state.union mks.state
      text := parseText (parts[2]?.getD []) })

/-- `CSI [1;] modifier[:kind] final` -/
def parseCsiModifierKey (seq : Bytes) : Parsed Event := do
  let stop ← minus seq.length 1
  let s ← subslice seq 2 stop >>= utf8
  let (first, modifiers) ← orInvalid (splitSeqOnce [0x3b] s)
  if first = [] ∨ first = text "1" then do
    let mks ← parseMks modifiers
    let code ← index seq stop >>= KeyCode.fromXtermModifier
    .ok (.key { code, modifiers := mks.modifiers, kind := mks.kind, state := mks.state })
  else bail

/-- `CSI modifier final` -/
def parseCsiModifierLegacyKey (seq : Bytes) : Parsed Event := do
  let stop ← minus seq.length 1
  let mks ← subslice seq 2 stop >>= utf8 >>= parseMks
  let code ← index seq stop >>= KeyCode.fromXtermModifier
  .ok (.key { code, modifiers := mks.modifiers, kind := mks.kind, state := mks.state })

def specialKey (first : Nat) : Parsed KeyCode :=
  if first = 1 ∨ first = 7 then .ok .home
  else if first = 2 then .ok .insert
  else if first = 3 then .ok .delete
  else if first = 4 ∨ first = 8 then .ok .«end»
  else if first = 5 then .ok .pageUp
  else if first = 6 then .ok .pageDown
  else if 11 ≤ first ∧ first ≤ 15 then .ok (.fn (UInt8.ofNat (first - 10)))
  else if 17 ≤ first ∧ first ≤ 21 then .ok (.fn (UInt8.ofNat (first - 11)))
  else if 23 ≤ first ∧ first ≤ 26 then .ok (.fn (UInt8.ofNat (first - 12)))
  else if 28 ≤ first ∧ first ≤ 29 then .ok (.fn (UInt8.ofNat (first - 15)))
  else if 31 ≤ first ∧ first ≤ 34 then .ok (.fn (UInt8.ofNat (first - 17)))
  else bail

def parseCsiSpecialKey (seq : Bytes) : Parsed Event := do
  let s ← subslice seq 2 (← minus seq.length 1) >>= utf8
  let parts := splitn 2 0x3b s
  let first ← parseNext 8 parts 0
  let mks ← parseMks (parts[1]?.getD [])
  let code ← specialKey first
  .ok (.key { code, modifiers := mks.modifiers, kind := mks.kind, state := mks.state })

/-! ### The mouse -/

/-- `CSI Cb ; Cx ; Cy ; M` -/
def parseCsiRxvtMouse (seq : Bytes) : Parsed Event := do
  let s ← subslice seq 2 (← minus seq.length 1) >>= utf8
  let parts := s.splitOn 0x3b
  let cb ← parseNext 8 parts 0 >>= checkedSub 32
  let (kind, modifiers) ← MouseEventKind.fromCb (UInt8.ofNat cb)
  let column ← parseNext 16 parts 1 >>= checkedSub 1
  let row ← parseNext 16 parts 2 >>= checkedSub 1
  .ok (.mouse ⟨kind, column, row, modifiers⟩)

/-- `CSI M CB Cx Cy`, where a position is 33 more than it says. -/
def parseCsiNormalMouse (seq : Bytes) : Parsed Event :=
  if seq.length < 6 then .error (.error .incomplete)
  else do
    let cb ← index seq 3 >>= fun b => checkedSub 32 b.toNat
    let (kind, modifiers) ← MouseEventKind.fromCb (UInt8.ofNat cb)
    let column ← index seq 4 >>= fun b => checkedSub 33 b.toNat
    let row ← index seq 5 >>= fun b => checkedSub 33 b.toNat
    .ok (.mouse ⟨kind, column, row, modifiers⟩)

/-- Which button was released is told by the last byte. -/
def released (last : UInt8) : MouseEventKind → MouseEventKind
  | .down button => if last = 0x6d then .up button else .down button
  | kind => kind

/-- `CSI < Cb ; Cx ; Cy (;) (M or m)` -/
def parseCsiSgrMouse (seq : Bytes) : Parsed Event :=
  match seq.getLast? with
  | some last =>
    if last = 0x6d ∨ last = 0x4d then do
      let s ← subslice seq 3 (← minus seq.length 1) >>= utf8
      let parts := s.splitOn 0x3b
      let cb ← parseNext 8 parts 0
      let (kind, modifiers) ← MouseEventKind.fromCb (UInt8.ofNat cb)
      let column ← parseNext 16 parts 1 >>= checkedSub 1
      let row ← parseNext 16 parts 2 >>= checkedSub 1
      .ok (.mouse ⟨released last kind, column, row, modifiers⟩)
    else .error (.error .ignored)
  | none => .error (.error .ignored)

/-! ### Reports -/

/-- The primary device attributes, the empty ones left out. -/
def parseAttributes (mid : Bytes) : Parsed (List Nat) := do
  let s ← utf8 mid
  ((s.splitOn 0x3b).filter (· ≠ [])).mapM (parseUint 16)

/-- `; height ; width` -/
def parseCellSize (mid : Bytes) : Parsed Report := do
  let s ← utf8 mid
  let (height, width) ← orInvalid ((s.dropPrefix? [0x3b]).bind (splitSeqOnce [0x3b]))
  let width ← parseUint 16 width
  let height ← parseUint 16 height
  .ok (.cellPixelSize width height)

/-- `[u8]::strip_suffix` -/
def stripSuffix (back s : Bytes) : Option Bytes :=
  if back.isSuffixOf s then some (s.take (s.length - back.length)) else none

/-- `[u8]::strip_circumfix` -/
def stripCircumfix (front back s : Bytes) : Option Bytes :=
  (s.dropPrefix? front).bind (stripSuffix back)

def blinks (status : Nat) : Parsed Bool :=
  if status = 1 ∨ status = 3 then .ok true else if status = 2 ∨ status = 4 then .ok false else bail

/-- The mode that is reported, in the order in which the modes are tried. -/
def parseMode (mid : Bytes) : Parsed Report :=
  match stripCircumfix (text "12;") (text "$") mid with
  | some s => do
    let status ← utf8 s >>= parseUint 8
    .cursorBlink <$> blinks status
  | none =>
    match stripCircumfix (text "5522;") (text "$") mid with
    | some s => do
      let status ← utf8 s >>= parseUint 8
      .ok (.clipboard (1 ≤ status ∧ status ≤ 3))
    | none => bail

def parseColorScheme (mid : Bytes) : Parsed Report :=
  if mid = text "997;1" then .ok (.colorScheme false)
  else if mid = text "997;2" then .ok (.colorScheme true)
  else bail

def parseCsiReport (seq : Bytes) : Parsed Event := do
  let first ← orInvalid seq[2]?
  let stop ← minus seq.length 1
  let mid ← orInvalid (if 3 ≤ stop then some ((seq.take stop).drop 3) else none)
  let last ← orInvalid seq.getLast?
  Event.report <$> match Char.ofUInt8 first, Char.ofUInt8 last with
    | '?', 'c' => .da1 <$> parseAttributes mid
    | '6', 't' => parseCellSize mid
    | '?', 'u' => .csiU <$> (utf8 mid >>= parseUint 8)
    | '?', 'y' => parseMode mid
    | '?', 'n' => parseColorScheme mid
    | _, _ => bail

/-! ### All of them -/

/-- Function keys of the Linux console. -/
def parseCsiLinux : Option UInt8 → Parsed Event
  | none => .error (.error .incomplete)
  | some b => if 0x41 ≤ b ∧ b ≤ 0x45 then .ok (.key (.of (.fn (1 + b - 0x41)))) else bail

/-- A sequence that starts with a digit. -/
def parseCsiNumber (seq : Bytes) (last : UInt8) : Parsed Event :=
  if ¬(64 ≤ last ∧ last ≤ 126) then .error (.error .incomplete)
  else match Char.ofUInt8 last with
    | 'M' => parseCsiRxvtMouse seq
    | 'u' => parseCsiUKey seq
    | '~' => parseCsiSpecialKey seq
    | 'n' => parseCsiReport seq
    | 't' => parseCsiReport seq
    | 'R' => .error (.error .ignored)
    | _ => if 0x3b ∈ seq then parseCsiModifierKey seq else parseCsiModifierLegacyKey seq

/-- An answer to a question about the terminal. -/
def parseCsiAnswer (seq : Bytes) (last : UInt8) : Parsed Event :=
  match Char.ofUInt8 last with
  | 'c' => parseCsiReport seq
  | 'n' => parseCsiReport seq
  | 'u' => parseCsiReport seq
  | 'y' => parseCsiReport seq
  | _ => bail

/-- The answer about the shape of the cursor is not an event. -/
def parseCsiShape (seq : Bytes) : Parsed Event := do
  let tail ← subslice seq (← minus seq.length 2) seq.length
  if tail = text " q" then .error (.error .ignored) else bail

def parseCsi (seq : Bytes) : Parsed Event :=
  if seq.length = 2 then .error (.error .incomplete)
  else do
    let first ← index seq 2
    let last ← minus seq.length 1 >>= index seq
    match Char.ofUInt8 first with
    | '[' => parseCsiLinux seq[3]?
    | 'D' => .ok (.key (.of .left))
    | 'C' => .ok (.key (.of .right))
    | 'A' => .ok (.key (.of .up))
    | 'B' => .ok (.key (.of .down))
    | 'H' => .ok (.key (.of .home))
    | 'F' => .ok (.key (.of .«end»))
    | 'Z' => .ok (.key (.make .tab .shift))
    | 'M' => parseCsiNormalMouse seq
    | '<' => parseCsiSgrMouse seq
    | 'I' => .ok .focusIn
    | 'O' => .ok .focusOut
    | ';' => parseCsiModifierKey seq
    | 'P' => .ok (.key (.of (.fn 1)))
    | 'Q' => .ok (.key (.of (.fn 2)))
    | 'S' => .ok (.key (.of (.fn 4)))
    | '?' => parseCsiAnswer seq last
    | '>' => parseCsiShape seq
    | _ => if 0x30 ≤ first ∧ first ≤ 0x39 then parseCsiNumber seq last else bail

end Yazi.Term
