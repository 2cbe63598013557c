import Yazi.Shared.Loc

/-!
The authority of a url: what service it belongs to, the authorities above it, and the
source that a view shows.

A view's data may hold urls again, so the types are defined together. They take the type
of the paths and of the numbers as parameters, since two authorities are equal when they
agree up to the spelling of paths and up to the sign of zero.
-/
namespace Yazi.Shared

inductive PathKind where
  | os
  | unix
  deriving DecidableEq, Repr

inductive AuthKind where
  | regular
  | mount
  | hub
  | scope
  | sftp
  | view
  deriving DecidableEq, Repr

/-- `TryFrom<AuthKind> for PathKind`. -/
def AuthKind.pathKind : AuthKind → Except String PathKind
  | .regular | .mount | .hub => .ok .os
  | .scope | .sftp => .ok .unix
  | .view => .error "Auth kind has no path kind"

def kebabCased (s : Bytes) : Bool :=
  s.all fun b => (0x30 ≤ b ∧ b ≤ 0x39) ∨ (0x61 ≤ b ∧ b ≤ 0x7a) ∨ b = 0x2d

/-- `KebabCasedKey`: 1 to 20 characters. -/
structure KebabCasedKey where
  text : Bytes
  valid : text ≠ [] ∧ text.length ≤ 20 ∧ kebabCased text = true
  deriving DecidableEq

inductive Scheme where
  | regular
  | sftp
  | custom (key : KebabCasedKey)
  deriving DecidableEq

/-- An `OrderedFloat<f64>` by its bits; all NaNs are one value. -/
structure Number where
  bits : UInt64
  canonical : bits &&& 0x7ff0000000000000 = 0x7ff0000000000000 →
    bits &&& 0x000fffffffffffff = 0 ∨ bits = 0x7ff8000000000000
  deriving DecidableEq

/-- The two zeros are equal. -/
def Number.value (n : Number) : UInt64 :=
  if n.bits = 0x8000000000000000 then 0 else n.bits

inductive WireKey where
  | integer (i : Int64)
  | string (s : Bytes)
  deriving DecidableEq

mutual

inductive AuthOf (L N : Type) where
  | mk (kind : AuthKind) (scheme : Scheme) (domain : Bytes) (parent : ParentOf L N)
    (view : ViewBoxOf L N)

inductive ParentOf (L N : Type) where
  | none
  | some (auth : AuthOf L N)

inductive ViewBoxOf (L N : Type) where
  | none
  | some (source : AuthOf L N) (data : WireOf L N)

inductive WireOf (L N : Type) where
  | nil
  | boolean (b : Bool)
  | integer (i : Int64)
  | number (n : N)
  | string (s : Bytes)
  | list (values : WiresOf L N)
  | dict (entries : DictOf L N)
  | id (id : UInt64)
  | url (url : UrlOf L N)
  | bytes (b : Bytes)

inductive WiresOf (L N : Type) where
  | nil
  | cons (value : WireOf L N) (rest : WiresOf L N)

inductive DictOf (L N : Type) where
  | nil
  | cons (key : WireKey) (value : WireOf L N) (rest : DictOf L N)

inductive UrlOf (L N : Type) where
  | os (loc : L) (auth : AuthOf L N)
  | unix (loc : L) (auth : AuthOf L N)

end

deriving instance DecidableEq for AuthOf, ParentOf, ViewBoxOf, WireOf, WiresOf, DictOf, UrlOf

section map
variable {L M N O : Type} (loc : L → M) (number : N → O)

mutual

def AuthOf.map : AuthOf L N → AuthOf M O
  | .mk kind scheme domain parent view => .mk kind scheme domain parent.map view.map

def ParentOf.map : ParentOf L N → ParentOf M O
  | .none => .none
  | .some auth => .some auth.map

def ViewBoxOf.map : ViewBoxOf L N → ViewBoxOf M O
  | .none => .none
  | .some source data => .some source.map data.map

def WireOf.map : WireOf L N → WireOf M O
  | .nil => .nil
  | .boolean b => .boolean b
  | .integer i => .integer i
  | .number n => .number (number n)
  | .string s => .string s
  | .list values => .list values.map
  | .dict entries => .dict entries.map
  | .id id => .id id
  | .url url => .url url.map
  | .bytes b => .bytes b

def WiresOf.map : WiresOf L N → WiresOf M O
  | .nil => .nil
  | .cons value rest => .cons value.map rest.map

def DictOf.map : DictOf L N → DictOf M O
  | .nil => .nil
  | .cons key value rest => .cons key value.map rest.map

def UrlOf.map : UrlOf L N → UrlOf M O
  | .os path auth => .os (loc path) auth.map
  | .unix path auth => .unix (loc path) auth.map

end

end map

abbrev Auth := AuthOf Loc Number

abbrev Parent := ParentOf Loc Number

abbrev ViewBox := ViewBoxOf Loc Number

abbrev Wire := WireOf Loc Number

abbrev Wires := WiresOf Loc Number

abbrev Dict := DictOf Loc Number

abbrev Url := UrlOf Loc Number

namespace AuthOf

variable {L N : Type}

def kind : AuthOf L N → AuthKind
  | .mk kind _ _ _ _ => kind

def scheme : AuthOf L N → Scheme
  | .mk _ scheme _ _ _ => scheme

def domain : AuthOf L N → Bytes
  | .mk _ _ domain _ _ => domain

def parent : AuthOf L N → ParentOf L N
  | .mk _ _ _ parent _ => parent

def view : AuthOf L N → ViewBoxOf L N
  | .mk _ _ _ _ view => view

/-- `Auth::DEFAULT`. -/
def default : AuthOf L N := .mk .regular .regular [] .none .none

def isRegular (auth : AuthOf L N) : Bool := auth.kind = .regular

def withParent (auth : AuthOf L N) (parent : ParentOf L N) : AuthOf L N :=
  .mk auth.kind auth.scheme auth.domain parent auth.view

def withView (auth : AuthOf L N) (view : ViewBoxOf L N) : AuthOf L N :=
  .mk auth.kind auth.scheme auth.domain auth.parent view

/-- The source of a view, any other authority itself. -/
def physical (auth : AuthOf L N) : AuthOf L N :=
  match auth.view with
  | .none => auth
  | .some source _ => source

def pathKind (auth : AuthOf L N) : Except String PathKind := auth.physical.kind.pathKind

def parentDepth : AuthOf L N → Nat
  | .mk _ _ _ .none _ => 0
  | .mk _ _ _ (.some parent) _ => parent.parentDepth + 1

/-- `Auth::parent_at`: `none` where `expect` panics. -/
def parentAt (auth : AuthOf L N) : Nat → Option (AuthOf L N)
  | 0 => some auth
  | depth + 1 =>
    match auth.parent with
    | .none => none
    | .some parent => parent.parentAt depth

/-- `AuthArc::with_parent_depth`: `none` where `expect` panics. -/
def withParentDepth (auth : AuthOf L N) (depth : Nat) : Option (AuthOf L N) :=
  let current := auth.parentDepth
  if current = depth then some auth
  else
    let parent :=
      if current < depth then some auth.parent
      else (auth.parentAt (current - depth)).map AuthOf.parent
    parent.map fun parent =>
      auth.withParent <| (List.range (depth - current)).foldl
        (fun parent _ => .some (.mk auth.kind auth.scheme [] parent .none)) parent

def validate (auth : AuthOf L N) : Except String Unit :=
  match auth.kind, auth.view with
  | .view, .none => .error "View auth requires view metadata"
  | .view, .some source _ =>
    if source.isRegular ∨ source.kind = .sftp then .ok ()
    else .error "View source must be Regular or Sftp"
  | _, .some _ _ => .error "Non-view auth cannot have view metadata"
  | _, .none => .ok ()

end AuthOf

namespace Auth

/-- What the derived equality of authorities compares. -/
def shape (auth : Auth) : AuthOf (List Path.Component) UInt64 := auth.map Loc.components Number.value

/-- Equal authorities have equal sources. -/
theorem shape_physical {a b : Auth} (same : shape a = shape b) :
    shape a.physical = shape b.physical := by
  have natural : ∀ auth : Auth, shape auth.physical = (shape auth).physical := by
    intro auth
    obtain ⟨kind, scheme, domain, parent, view⟩ := auth
    cases view <;> simp [AuthOf.physical, AuthOf.view, shape, AuthOf.map, ViewBoxOf.map]
  rw [natural, natural, same]

/-- `Auth::covariant`. -/
def covariant (a b : Auth) : Bool := shape a.physical = shape b.physical

end Auth

end Yazi.Shared
