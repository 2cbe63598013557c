import Yazi.Shared.Twiddle
import Yazi.Shared.Url

/-!
How a url is written: scheme and domain, the ports, what the kind adds, and the path.

`encode` marks the scheme with a tilde and escapes the path. `serialize` leaves the path of a
valid text as it is.
-/
namespace Yazi.Shared

/-- The texts of numbers, as the standard library writes and reads them. -/
structure Floats where
  print : Number → Bytes
  parse : Bytes → Option Number
  parse_print : ∀ n, parse (print n) = some n
  utf8_print : ∀ n, Utf8.isUtf8 (print n) = true

def Scheme.asStr : Scheme → Bytes
  | .regular => text "regular"
  | .sftp => text "sftp"
  | .custom key => key.text

namespace Spec

/-- How many components the URI and the URN have. -/
def ports (loc : Loc) : Nat × Nat :=
  ((Path.components loc.uri).length, (Path.components loc.urn).length)

/-- `Spec::retrieve_ports`. -/
def retrievePorts (url : Url) : Nat × Nat :=
  match url with
  | .os loc auth =>
    if auth.isRegular then ((Path.name loc.inner).isSome.toNat, (Path.name loc.inner).isSome.toNat)
    else ports loc
  | .unix loc _ => ports loc

def portsText (uri urn default : Nat) : Bytes :=
  match decide (uri ≠ default), decide (urn ≠ default) with
  | true, true => [0x3a] ++ Decimal.write uri ++ [0x3a] ++ Decimal.write urn
  | true, false => [0x3a] ++ Decimal.write uri
  | false, true => [0x3a, 0x3a] ++ Decimal.write urn
  | false, false => []

/-- `EncodePorts` of a url with this kind and path. -/
def encodePorts (kind : AuthKind) (loc : Loc) : Bytes :=
  let (uri, urn) := ports loc
  match kind with
  | .regular => []
  | .view | .mount => portsText uri urn 0
  | .hub | .scope | .sftp => portsText uri urn (Path.name loc.inner).isSome.toNat

/-- `auth::Encode`. -/
def encodeAuth (tilde : Bool) (scheme : Scheme) (domain : Bytes) : Bytes :=
  scheme.asStr ++ (if tilde then [Twiddle.tilde] else []) ++ text "://" ++
    Percent.encodeDomain Percent.domainSet domain

/-- A path in a text, escaped behind a tilde. -/
def encodePath (tilde : Bool) (path : Bytes) : Bytes :=
  if tilde then Percent.encode Percent.pathSet path else path

end Spec

/-- The domains of the authorities above, the nearest first. -/
def ParentOf.domains {L N : Type} : ParentOf L N → List Bytes
  | .none => []
  | .some (.mk _ _ domain parent _) => domain :: parent.domains

/-- `EncodePrefix`, which fails for a view without metadata. -/
def encodePrefix (kind : AuthKind) (parent : Parent) (data : Option Bytes) : Option Bytes :=
  match kind with
  | .regular => some []
  | .hub =>
    let domains := parent.domains.map (Percent.encodeDomain Percent.parentSet)
    some (text "/@" ++ [0x2c].intercalate domains ++ [Path.slash])
  | .view => data.map fun data => text "/@" ++ data ++ [Path.slash]
  | .mount | .scope | .sftp => some [Path.slash]

namespace Wire

def sized (value : Bytes) : Bytes :=
  Varint.writeU64 (UInt64.ofNat (Twiddle.lenBytes value)) ++ Twiddle.encodeBytes value

/-- `Encoder::write_display`. -/
def display (tag : UInt8) (value : Bytes) : Bytes :=
  let escaped := Twiddle.encode value
  tag :: (Varint.writeU64 (UInt64.ofNat escaped.length) ++ escaped)

def length : Wires → Nat
  | .nil => 0
  | .cons _ rest => length rest + 1

def count : Dict → Nat
  | .nil => 0
  | .cons _ _ rest => count rest + 1

def WireKey.isInteger : WireKey → Bool
  | .integer _ => true
  | .string _ => false

def integers : Dict → Nat
  | .nil => 0
  | .cons key _ rest => integers rest + (WireKey.isInteger key).toNat

/-- What stands before the elements of a list. -/
def listHead (len : Nat) : Bytes :=
  if len ≤ 25 then [UInt8.ofNat (0x41 + len)]
  else 0x6c :: Varint.writeU64 (UInt64.ofNat len)

/-- What stands before the entries of a dictionary. -/
def dictHead (entries : Dict) : Bytes :=
  match entries with
  | .nil => [0x21]
  | .cons .. =>
    0x64 :: (Varint.writeU64 (UInt64.ofNat (count entries)) ++
      Varint.writeU64 (UInt64.ofNat (integers entries)))

def encodeKey : WireKey → Bytes
  | .integer i => Varint.writeI64 i
  | .string s => sized s

end Wire

/-- The location of the source that a view shows at this path. -/
def sourceLoc (loc : Loc) : Loc := Loc.bare (Url.saturated loc.base .view).inner

section encode
variable (floats : Floats)

-- A view writes its source and its data, and the data may hold urls.
mutual

/-- `spec::Encode` of the url with this authority: everything but the path. -/
def AuthOf.encodeSpec : Auth → Loc → Option Bytes
  | .mk kind scheme domain parent view, loc => do
    let lead ← encodePrefix kind parent view.encodeData
    let source ← view.encodeSource kind loc
    some (Spec.encodeAuth false scheme domain ++ Spec.encodePorts kind loc ++ lead ++ source)

/-- `url::Encode` of the url with this authority. -/
def AuthOf.encodeAt : Auth → Loc → Option Bytes
  | .mk kind scheme domain parent view, loc =>
    let path := Spec.encodePath true loc.inner
    if kind = .regular then some (Spec.encodeAuth true scheme domain ++ path)
    else do
      let lead ← encodePrefix kind parent view.encodeData
      let source ← view.encodeSource kind loc
      some (Spec.encodeAuth true scheme domain ++ Spec.encodePorts kind loc ++ lead ++
        Spec.encodePath true source ++ path)

/-- The data of a view. -/
def ViewBoxOf.encodeData : ViewBox → Option Bytes
  | .none => none
  | .some _ data => data.encode

/-- What a view adds for its source: nothing for a regular one. -/
def ViewBoxOf.encodeSource : ViewBox → AuthKind → Loc → Option Bytes
  | .none, kind, _ => if kind = .view then none else some []
  | .some source _, kind, loc =>
    if kind = .view then
      if source.isRegular then some [] else source.encodeSpec (sourceLoc loc)
    else some []

/-- `Encoder::encode`. -/
def WireOf.encode : Wire → Option Bytes
  | .nil => some [0x6e]
  | .boolean b => some [if b then 0x31 else 0x30]
  | .integer i => some (0x69 :: Varint.writeI64 i)
  | .number n => some (Wire.display 0x66 (floats.print n))
  | .string s => some (0x73 :: Wire.sized s)
  | .list values => do
    let elements ← values.encode
    some (Wire.listHead (Wire.length values) ++ elements)
  | .dict entries => do
    let texts ← entries.encode
    some (Wire.dictHead entries ++ texts)
  | .id id => some (0x78 :: Varint.writeU64 id)
  | .url url => url.encode.map (Wire.display 0x75)
  | .bytes b => some (0x79 :: Wire.sized b)

def WiresOf.encode : Wires → Option Bytes
  | .nil => some []
  | .cons value rest => do
    let value ← value.encode
    let rest ← rest.encode
    some (value ++ rest)

def DictOf.encode : Dict → Option Bytes
  | .nil => some []
  | .cons key value rest => do
    let value ← value.encode
    let rest ← rest.encode
    some (Wire.encodeKey key ++ value ++ rest)

/-- `Url::encode`: `none` where writing fails. -/
def UrlOf.encode : Url → Option Bytes
  | .os loc auth => auth.encodeAt loc
  | .unix loc auth => auth.encodeAt loc

end

/-- `Url::serialize`. -/
def serialize (url : Url) : Option Bytes :=
  match url.isRegular, Utf8.isUtf8 url.loc.inner with
  | true, true => some url.loc.inner
  | false, true => (url.auth.encodeSpec floats url.loc).map (· ++ url.loc.inner)
  | _, false => url.encode floats

end encode

end Yazi.Shared
