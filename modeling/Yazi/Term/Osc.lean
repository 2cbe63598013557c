import Yazi.Term.Csi

/-!
The string sequences: reports in OSC, DCS and APC, drag and drop in OSC 72, the clipboard in OSC
5522.

The last two come in chunks, each of which is sliced behind the prefix that the first one has.
-/
namespace Yazi.Term
open Yazi.Base Yazi.Shared

/-- `ESC \` -/
def terminator : Bytes := [0x1b, 0x5c]

/-- `BEL` -/
def bel : UInt8 := 0x07

def stripOscTerminator (seq : Bytes) : Parsed Bytes :=
  orInvalid ((stripSuffix terminator seq).or (stripSuffix [bel] seq))

/-! ### Reports -/

def cursorShape : Bytes → Parsed Report
  | [shape, 0x20, 0x71] =>
    if 0x30 ≤ shape ∧ shape ≤ 0x36 then .ok (.cursorShape (shape - 0x30)) else bail
  | _ => bail

def parseDcsReport (seq : Bytes) : Parsed Event := do
  let seq ← orInvalid (stripSuffix terminator seq)
  match seq.dropPrefix? (0x1b :: text "P1$r") with
  | some body => .report <$> cursorShape body
  | none =>
    match seq.dropPrefix? (0x1b :: text "P>|") with
    | some body => .ok (.report (.xtVersion (Text.fromUtf8Lossy body)))
    | none => bail

def hexDigit (b : UInt8) : Option Nat :=
  if 0x30 ≤ b ∧ b ≤ 0x39 then some (b.toNat - 0x30)
  else if 0x61 ≤ b ∧ b ≤ 0x66 then some (b.toNat - 0x61 + 10)
  else if 0x41 ≤ b ∧ b ≤ 0x46 then some (b.toNat - 0x41 + 10)
  else none

/-- `u16::from_str_radix(s, 16)` -/
def parseHex (s : Bytes) : Parsed Nat :=
  match (Decimal.unsigned s).mapM hexDigit with
  | some (d :: ds) =>
    let n := (d :: ds).foldl (fun n d => n * 16 + d) 0
    if n < 2 ^ 16 then .ok n else bail
  | _ => bail

/-- `u16` arithmetic. -/
def word (n : Nat) : Parsed Nat := if n < 2 ^ 16 then .ok n else .error .panic

/-- A color of one to four digits, repeated to four. -/
def parseColor (s : Bytes) : Parsed Nat := do
  let n ← parseHex s
  match s.length with
  | 1 => word (n * 0x1111)
  | 2 => word (n * 0x0101)
  | 3 => .ok (n <<< 4 % 2 ^ 16 ||| n >>> 8)
  | 4 => .ok n
  | _ => bail

def parseBgRgb (body : Bytes) : Parsed Report := do
  let s ← utf8 body
  let parts := s.splitOn 0x2f
  let red ← next parts 0 >>= parseColor
  let green ← next parts 1 >>= parseColor
  let blue ← next parts 2 >>= parseColor
  if 3 < parts.length then bail else .ok (.backgroundColor red green blue)

def parseOscReport (seq : Bytes) : Parsed Event := do
  let seq ← stripOscTerminator seq
  match seq.dropPrefix? (0x1b :: text "]11;rgb:") with
  | some body => .report <$> parseBgRgb body
  | none => bail

def parseApcReport (seq : Bytes) : Parsed Event := do
  let seq ← orInvalid (stripSuffix terminator seq)
  match seq.dropPrefix? (0x1b :: text "_G") with
  | some body => do
    let (fields, status) ← utf8 body >>= fun s => orInvalid (splitSeqOnce [0x3b] s)
    let id ← orInvalid ((fields.splitOn 0x2c).findSome? fun s => s.dropPrefix? (text "i="))
    let id ← parseUint 32 id
    .ok (.report (.kittyGraphics id (status = text "OK")))
  | none => bail

/-! ### Chunks -/

/-- The meta data of a chunk, and its payload. -/
def chunkParts (body : Bytes) : Parsed (Bytes × Bytes) := do
  let parts := splitn 2 0x3b body
  let fields ← next parts 0 >>= utf8
  .ok (fields, parts[1]?.getD [])

/-! ### Drag and drop -/

def osc72Limit : Nat := 2 ^ 20

def osc72Pair (s : StateOsc72) (part : Bytes) : Parsed StateOsc72 := do
  let (key, v) ← orInvalid (splitSeqOnce [0x3d] part)
  if key = text "t" then .ok { s with type := v.head?.or s.type }
  else if key = text "x" then (parseI32 v).map fun x => { s with x }
  else if key = text "y" then (parseI32 v).map fun y => { s with y }
  else if key = text "o" then (parseUint 8 v).map fun op => { s with op := UInt8.ofNat op }
  else if key = text "m" ∧ v = text "1" then .ok { s with hasMore := true }
  else .ok s

/-- A payload of `t=r` announces more, with `m=1` or without. -/
def osc72Payload (payload : Bytes) (s : StateOsc72) : Parsed StateOsc72 :=
  if osc72Limit < s.payload.length + payload.length then bail
  else .ok
    { s with
      hasMore := s.hasMore || s.type = some 0x72 && !payload.isEmpty
      payload := s.payload ++ payload }

/-- `parse_osc72`. The state that an error leaves behind is thrown away. -/
def parseOsc72 (seq : Bytes) (s : StateOsc72) : Parsed StateOsc72 := do
  let (fields, payload) ← subslice seq 5 (← minus seq.length 2) >>= chunkParts
  (fields.splitOn 0x3a).foldlM osc72Pair { s with hasMore := false } >>= osc72Payload payload

/-! ### The clipboard -/

def osc5522Limit : Nat := 2 ^ 24

/-- A text in base 64. -/
def decodeText (lib : Library) (v : Bytes) : Parsed Text :=
  orInvalid ((lib.decodePad v).bind Text.ofUtf8)

def osc5522Pair (lib : Library) (s : StateOsc5522) (part : Bytes) : Parsed StateOsc5522 := do
  let (key, v) ← orInvalid (splitSeqOnce [0x3d] part)
  if key = text "type" then .ok { s with write := v = text "write" }
  else if key = text "loc" then .ok { s with primary := v = text "primary" }
  else if key = text "mime" then
    (decodeText lib v).map fun mime =>
      { s with mimes := if s.mimes.getLast? = some mime then s.mimes else s.mimes ++ [mime] }
  else if key = text "pw" then (decodeText lib v).map fun pw => { s with pw }
  else if key = text "status" then
    .ok { s with status := v, hasMore := v = text "OK" ∨ v = text "DATA" }
  else .ok s

/-- A payload belongs to the last type there is. -/
def pushPayload (payload : Bytes) (s : StateOsc5522) : Parsed StateOsc5522 :=
  if s.payload.length < s.mimes.length then .ok { s with payload := s.payload ++ [payload] }
  else match s.payload.getLast? with
    | some last => .ok { s with payload := s.payload.dropLast ++ [last ++ payload] }
    | none => bail

def osc5522Payload (lib : Library) (payload : Bytes) (s : StateOsc5522) : Parsed StateOsc5522 :=
  if osc5522Limit < s.len ∨ 1024 < s.mimes.length then bail
  else if s.status ≠ text "DATA" then .ok s
  else do
    -- Each payload has a padding of its own.
    let payload ← orInvalid (lib.decodePad payload)
    if osc5522Limit < s.len + payload.length then bail else pushPayload payload s

/-- `parse_osc5522` -/
def parseOsc5522 (lib : Library) (seq : Bytes) (s : StateOsc5522) : Parsed StateOsc5522 := do
  let seq ← stripOscTerminator seq
  let (fields, payload) ← subslice seq 7 seq.length >>= chunkParts
  (fields.splitOn 0x3a).foldlM (osc5522Pair lib) { s with status := [], hasMore := false } >>=
    osc5522Payload lib payload

end Yazi.Term
