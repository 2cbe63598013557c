import Yazi.Base.Reader
import Yazi.Shared.Encode

/-!
How a text is read as a url, and the metadata of a view as wire data.

Wire data may hold urls, and the url of a view holds wire data and its source, each in a
shorter text. The readers count down how deep they may still go.
-/
namespace Yazi.Shared

/-- Where the services are registered: `AuthInventory`. -/
abbrev Inventory := Scheme → Bytes → Option Auth

/-- `split_seq_once`. -/
def splitSeqOnce (sep : Bytes) : Bytes → Option (Bytes × Bytes)
  | [] => if sep = [] then some ([], []) else none
  | b :: rest =>
    if sep.isPrefixOf (b :: rest) then some ([], (b :: rest).drop sep.length)
    else (splitSeqOnce sep rest).map fun (before, after) => (b :: before, after)

/-- `str::splitn`: at most so many parts. -/
def splitn : Nat → UInt8 → Bytes → List Bytes
  | 0, _, _ => []
  | 1, _, s => [s]
  | n + 2, sep, s =>
    match splitSeqOnce [sep] s with
    | some (before, after) => before :: splitn (n + 1) sep after
    | none => [s]

theorem splitSeqOnce_byte {b : UInt8} {lead : Bytes} (clean : b ∉ lead) (rest : Bytes) :
    splitSeqOnce [b] (lead ++ b :: rest) = some (lead, rest) := by
  induction lead with
  | nil => simp [splitSeqOnce]
  | cons c lead ih =>
    obtain ⟨other, later⟩ := not_or.mp (mt List.mem_cons.mpr clean)
    simp [splitSeqOnce, other, ih later]

theorem not_mem_of_splitSeqOnce {b : UInt8} {s before after : Bytes}
    (found : splitSeqOnce [b] s = some (before, after)) : b ∉ before := by
  induction s generalizing before with
  | nil => simp [splitSeqOnce] at found
  | cons c rest ih =>
    simp only [splitSeqOnce] at found
    split at found
    · cases found
      exact List.not_mem_nil
    · next other =>
      obtain ⟨⟨first, after'⟩, inner, same⟩ := Option.map_eq_some_iff.mp found
      cases same
      have apart : b ≠ c := fun same => other (by simp [same])
      exact List.not_mem_cons_of_ne_of_not_mem apart (ih inner)

/-- The parts before and after the last `b`. -/
def rsplitOnce (b : UInt8) (s : Bytes) : Option (Bytes × Bytes) :=
  if b ∈ s then some ((s.rdropWhile (· != b)).dropLast, s.rtakeWhile (· != b)) else none

/-- The part before the first `/`, and the part behind it. -/
def splitSlash (s : Bytes) : Bytes × Bytes :=
  (s.takeWhile (· != Path.slash), (s.dropWhile (· != Path.slash)).drop 1)

/-- `Scheme::from_str`. -/
def Scheme.fromStr (s : Bytes) : Except Error Scheme :=
  if s = text "regular" then .ok .regular
  else if s = text "sftp" then .ok .sftp
  else if valid : s ≠ [] ∧ s.length ≤ 20 ∧ kebabCased s = true then .ok (.custom ⟨s, valid⟩)
  else .error (.scheme s)

def Error.ofText {α : Type} : Except String α → Except Error α
  | .ok a => .ok a
  | .error message => .error (.text message)

def ensure (condition : Prop) [Decidable condition] (message : String) : Except Error Unit :=
  if condition then .ok () else .error (.text message)

/-- `AuthArc::get`. -/
def getAuth (inventory : Inventory) (scheme : Scheme) (domain : Bytes) : Except Error Auth :=
  match scheme with
  | .regular => .ok AuthOf.default
  | scheme =>
    match inventory scheme domain with
    | some auth => .ok auth
    | none => .error (.authority scheme domain)

structure ParsedSpec where
  bytes : Bytes
  skip : Nat
  scheme : Scheme
  tilde : Bool

namespace ParsedSpec

/-- A final tilde is no part of the scheme. -/
def stripTilde (scheme : Bytes) : Bytes × Bool :=
  if scheme.getLast? = some Twiddle.tilde then (scheme.dropLast, true) else (scheme, false)

def parse (bytes : Bytes) : Except Error ParsedSpec :=
  match splitSeqOnce (text "://") bytes with
  | none => .ok ⟨bytes, 0, .regular, false⟩
  | some (scheme, _) =>
    let (scheme, tilde) := stripTilde scheme
    if Utf8.isUtf8 scheme then do
      let scheme ← Scheme.fromStr scheme
      .ok ⟨bytes, 3 + scheme.asStr.length + tilde.toNat, scheme, tilde⟩
    else .error .utf8

def rest (parsed : ParsedSpec) : Bytes := parsed.bytes.drop parsed.skip

end ParsedSpec

structure Spec where
  auth : Auth
  uri : Nat
  urn : Nat

namespace Spec

def decodePort (s : Bytes) : Except Error (Option Nat) :=
  if s = [] then .ok none else (Decimal.parse s).map some

/-- `Spec::decode_ports`, with what is left of the domain. -/
def decodePorts (bytes : Bytes) : Except Error (Option Nat × Option Nat × Bytes) :=
  match rsplitOnce 0x3a bytes with
  | none => .ok (none, none, bytes)
  | some (front, a) => do
    let a ← decodePort a
    match rsplitOnce 0x3a front with
    | none => .ok (a, none, front)
    | some (front, b) => do
      let b ← decodePort b
      .ok (b, a, front)

/-- `Spec::decode_param`, with the rest behind the slash. -/
def decodeParam (bytes : Bytes) : Except Error (Bytes × Option Nat × Option Nat × Bytes) := do
  let (param, rest) := splitSlash bytes
  let (uri, urn, domain) ← decodePorts param
  .ok (Percent.decode domain, uri, urn, rest)

def decodePath (kind : PathKind) (tilde : Bool) (bytes : Bytes) : PathDyn :=
  ⟨kind, if tilde then Percent.decode bytes else bytes⟩

/-- The metadata between `@` and `/`, and the rest. -/
def decodeMeta (marker delimiter : String) (bytes : Bytes) : Except Error (Bytes × Bytes) :=
  if bytes.head? = some 0x40 then
    if Path.slash ∈ bytes.tail then .ok (splitSlash bytes.tail)
    else .error (.text delimiter)
  else .error (.text marker)

/-- The authorities above a hub; the last domain belongs to the topmost. -/
def decodeParents (auth : Auth) (domains : List Bytes) : Parent :=
  domains.foldr
    (fun domain parent =>
      .some (.mk auth.kind auth.scheme (Percent.decode domain) parent .none))
    .none

def decodeHub (auth : Auth) (tilde : Bool) (bytes : Bytes) : Except Error (PathDyn × Auth) := do
  let (domains, rest) ← decodeMeta "Hub URL requires an `@` parent marker"
    "Hub URL requires a path delimiter" bytes
  let path := decodePath .os tilde rest
  let depth := Path.authDepth path.bytes
  if depth = 0 then
    ensure (domains = []) "Hub URL has too many parent domains"
    .ok (path, auth)
  else
    let domains := domains.splitOn 0x2c
    ensure (domains.length = depth) "Hub URL parent depth does not match its path"
    .ok (path, auth.withParent (decodeParents auth domains))

def normalizePorts (kind : AuthKind) (uri urn : Option Nat) (path : PathDyn) :
    Except Error (Nat × Nat) :=
  let name := (Path.name path.bytes).isSome.toNat
  match kind with
  | .regular => do
    ensure (uri = none ∧ urn = none) "Regular scheme cannot have ports"
    .ok (name, name)
  | .view => do
    let (uri, urn) := (uri.getD 0, urn.getD 0)
    ensure (urn ≤ uri) "View URN cannot be longer than URI"
    .ok (uri, urn)
  | .mount => .ok (uri.getD 0, urn.getD 0)
  | .hub | .scope | .sftp => .ok (uri.getD name, urn.getD name)

/-- `validate_auth_path`. -/
def validateAuthPath (auth : Auth) (path : PathDyn) : Except Error Unit := do
  Error.ofText auth.validate
  let kind ← Error.ofText auth.pathKind
  ensure (kind = path.kind) "URL path kind does not match Auth kind"
  if auth.kind = .hub then
    ensure (auth.parentDepth = Path.authDepth path.bytes)
      "Hub URL parent depth does not match its path"
  else .ok ()

/-- `UrlCow::try_from` of a parsed url. -/
def toUrl (spec : Spec) (path : PathDyn) : Except Error Url := do
  validateAuthPath spec.auth path
  match path.kind with
  | .os =>
    if spec.auth.isRegular then .ok (.os (Loc.bare path.bytes) spec.auth)
    else do
      let loc ← Error.ofText (Loc.withPorts path.bytes spec.uri spec.urn)
      .ok (.os loc spec.auth)
  | .unix => do
    let loc ← Error.ofText (Loc.withPorts path.bytes spec.uri spec.urn)
    .ok (.unix loc spec.auth)

/-- `Spec::decode_view`, with the readers of the metadata and of the source. -/
def decodeView (wire : Bytes → Except Error Wire) (parse : Bytes → Except Error (Spec × PathDyn))
    (auth : Auth) (tilde : Bool) (bytes : Bytes) : Except Error (PathDyn × Auth) := do
  let (encoded, rest) ← decodeMeta "View URL requires an `@` metadata marker"
    "View URL requires a path delimiter" bytes
  let data ← wire (Percent.decode encoded)
  let (source, path) ← parse (if tilde then Percent.decode rest else rest)
  let auth := auth.withView (.some source.auth data)
  Error.ofText auth.validate
  .ok (path, auth)

/-- The domain and the ports, with the rest behind them. -/
def decodeDomain (parsed : ParsedSpec) : Except Error (Bytes × Option Nat × Option Nat × Bytes) :=
  match parsed.scheme with
  | .regular => .ok ([], none, none, parsed.rest)
  | _ => decodeParam parsed.rest

/-- The path, and the authority with what the kind adds. -/
def decodeKind (wire : Bytes → Except Error Wire) (parse : Bytes → Except Error (Spec × PathDyn))
    (auth : Auth) (tilde : Bool) (rest : Bytes) : Except Error (PathDyn × Auth) :=
  match auth.kind with
  | .hub => decodeHub auth tilde rest
  | .view => decodeView wire parse auth tilde rest
  | _ => do
    let kind ← Error.ofText auth.pathKind
    .ok (decodePath kind tilde rest, auth)

/-- `Spec::parse`, with the readers of the metadata and of the source of a view. -/
def parseWith (inventory : Inventory) (wire : Bytes → Except Error Wire)
    (parse : Bytes → Except Error (Spec × PathDyn)) (bytes : Bytes) :
    Except Error (Spec × PathDyn) := do
  let parsed ← ParsedSpec.parse bytes
  let (domain, uri, urn, rest) ← decodeDomain parsed
  let auth ← getAuth inventory parsed.scheme domain
  let (path, auth) ← decodeKind wire parse auth parsed.tilde rest
  let (uri, urn) ← normalizePorts auth.kind uri urn path
  .ok (⟨auth, uri, urn⟩, path)

end Spec

abbrev Decoder := Base.Reader UInt8 Error

namespace Decoder

def fail {α : Type} (message : String) : Decoder α := fun _ => .error (.text message)

def byte : Decoder UInt8 := fun c =>
  match c.rest with
  | [] => .error (.text "unexpected end of wire data")
  | b :: rest => .ok (b, ⟨c.pos + 1, rest⟩)

def varint : Decoder UInt64 := fun c =>
  match Varint.readU64 c.rest with
  | .error e => .error e
  | .ok (value, len) => .ok (value, ⟨c.pos + len, c.rest.drop len⟩)

def signedVarint : Decoder Int64 := fun c =>
  match Varint.readI64 c.rest with
  | .error e => .error e
  | .ok (value, len) => .ok (value, ⟨c.pos + len, c.rest.drop len⟩)

/-- The next bytes. -/
def take (len : Nat) : Decoder Bytes := fun c =>
  if 2 ^ 64 ≤ c.pos + len then .error (.text "wire data length overflow")
  else if c.rest.length < len then .error (.text "wire data is truncated")
  else .ok (c.rest.take len, ⟨c.pos + len, c.rest.drop len⟩)

def sized : Decoder Bytes := do
  let len ← varint
  let value ← take len.toNat
  StateT.lift (Twiddle.decode value)

def utf8 : Decoder Bytes := do
  let value ← sized
  StateT.lift (if Utf8.isUtf8 value then .ok value else .error .utf8)

/-- No count exceeds what is left. -/
def checkLength (len : Nat) (message : String) : Decoder Unit := fun c =>
  if len ≤ c.rest.length then .ok ((), c) else .error (.text message)

def ofList : List Wire → Wires
  | [] => .nil
  | value :: rest => .cons value (ofList rest)

def list (value : Decoder Wire) (len : Nat) : Decoder Wire := do
  checkLength len "invalid list length in wire data"
  let values ← value.times len
  pure (.list (ofList values))

/-- The order of `BTreeMap<WireKey, _>`: integers come first. -/
def WireKey.less : WireKey → WireKey → Bool
  | .integer a, .integer b => a < b
  | .integer _, .string _ => true
  | .string _, .integer _ => false
  | .string a, .string b => a < b

/-- `BTreeMap::insert` of a key that is not there. -/
def insert (key : WireKey) (value : Wire) : Dict → Dict
  | .nil => .cons key value .nil
  | .cons k v rest =>
    if WireKey.less key k then .cons key value (.cons k v rest)
    else .cons k v (insert key value rest)

def key (integer : Bool) : Decoder WireKey :=
  if integer then do
    let i ← signedVarint
    pure (.integer i)
  else do
    let s ← utf8
    pure (.string s)

/-- Reads `len` entries, of which the first `integers` have integer keys; `seen` are the keys
before. -/
def entries (value : Decoder Wire) : Nat → Nat → List WireKey → Decoder (List (WireKey × Wire))
  | 0, _, _ => pure []
  | len + 1, integers, seen => do
    let key ← key (0 < integers)
    let data ← value
    if key ∈ seen then fail "duplicate dict key in wire data"
    else do
      let rest ← entries value len (integers - 1) (key :: seen)
      pure ((key, data) :: rest)

def dict (value : Decoder Wire) (len integers : Nat) : Decoder Wire := do
  checkLength len "invalid dict length in wire data"
  if integers ≤ len then do
    let values ← entries value len integers []
    pure (.dict (values.foldl (fun dict entry => insert entry.1 entry.2 dict) .nil))
  else fail "invalid integer key count in wire data"

/-- The value behind a tag, with the readers of nested values and of urls. -/
def tagged (floats : Floats) (value : Decoder Wire) (url : Bytes → Except Error Url)
    (tag : UInt8) : Decoder Wire :=
  if tag = 0x6e then pure .nil
  else if tag = 0x30 then pure (.boolean false)
  else if tag = 0x31 then pure (.boolean true)
  else if tag = 0x69 then do
    let i ← signedVarint
    pure (.integer i)
  else if tag = 0x66 then do
    let b ← utf8
    match floats.parse b with
    | some n => pure (.number n)
    | none => StateT.lift (.error .number)
  else if tag = 0x73 then do
    let s ← utf8
    pure (.string s)
  else if 0x41 ≤ tag ∧ tag ≤ 0x5a then list value (tag - 0x41).toNat
  else if tag = 0x6c then do
    let len ← varint
    list value len.toNat
  else if tag = 0x21 then pure (.dict .nil)
  else if tag = 0x64 then do
    let len ← varint
    let integers ← varint
    dict value len.toNat integers.toNat
  else if tag = 0x78 then do
    let id ← varint
    pure (.id id)
  else if tag = 0x75 then do
    let b ← sized
    let url ← StateT.lift (url b)
    pure (.url url)
  else if tag = 0x79 then do
    let b ← sized
    pure (.bytes b)
  else StateT.lift (.error (.tag tag))

/-- `Wire::decode`. -/
def run (value : Decoder Wire) (bytes : Bytes) : Except Error Wire :=
  match value ⟨0, bytes⟩ with
  | .error e => .error e
  | .ok (data, c) =>
    if c.pos = bytes.length then .ok data else .error (.text "trailing bytes in wire data")

end Decoder

section decode
variable (inventory : Inventory) (floats : Floats)

mutual

/-- `Decoder::value`, at most `depth` levels deep. -/
def value : Nat → Decoder Wire
  | 0 => StateT.lift (.error .depth)
  | depth + 1 => do
    let tag ← Decoder.byte
    Decoder.tagged floats (value depth)
      (fun s => do
        let (spec, path) ← parse depth s
        spec.toUrl path)
      tag

/-- `Spec::parse`, at most `depth` levels deep. -/
def parse : Nat → Bytes → Except Error (Spec × PathDyn)
  | 0, _ => .error .depth
  | depth + 1, s => Spec.parseWith inventory (Decoder.run (value depth)) (parse depth) s

end

/-- `UrlCow::try_from` of a text, at most `depth` levels deep. -/
def tryFrom (depth : Nat) (s : Bytes) : Except Error Url := do
  let (spec, path) ← parse inventory floats depth s
  spec.toUrl path

/-- `UrlCow::try_from` of a text. Every level takes a byte of it. -/
def decode (s : Bytes) : Except Error Url := tryFrom inventory floats (s.length + 1) s

/-- `Wire::decode`. -/
def Wire.decode (s : Bytes) : Except Error Wire :=
  Decoder.run (value inventory floats (s.length + 1)) s

end decode

end Yazi.Shared
