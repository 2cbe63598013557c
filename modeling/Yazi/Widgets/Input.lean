import Yazi.Base.Run
import Yazi.Widgets.Snap

/-!
The input widget: what its actions do to the snapshot and its versions, and what a rendering
asks for. `none` is a panic.

A callback sees values only; that the text before the cursor is taken apart for it is all that
matters here. What a paste finds in the clipboard is part of the action.
-/
namespace Yazi.Widgets

/-! ### Options -/

/-- `MoveOptStep` -/
inductive MoveOptStep where
  | offset (n : Int)
  | bol
  | eol
  | firstChar
  deriving DecidableEq, Repr

/-- `char::is_whitespace` -/
def isWhitespace (c : Char) : Bool :=
  let n := c.toNat
  (9 ≤ n ∧ n ≤ 13) ∨ n = 0x20 ∨ n = 0x85 ∨ n = 0xa0 ∨ n = 0x1680 ∨ (0x2000 ≤ n ∧ n ≤ 0x200a) ∨
    n = 0x2028 ∨ n = 0x2029 ∨ n = 0x202f ∨ n = 0x205f ∨ n = 0x3000

/-- `MoveOptStep::add` -/
def MoveOptStep.add (s : List Char) (cursor : Nat) : MoveOptStep → Nat
  | offset n => if n ≤ 0 then cursor - n.natAbs else min s.length (cursor + n.natAbs)
  | bol => 0
  | eol => s.length
  | firstChar => (s.findIdx? fun c => !isWhitespace c).getD 0

inductive Gait where
  | fine
  | lean
  | wide
  deriving DecidableEq, Repr

inductive CharKind where
  | space
  | punct
  | other
  deriving DecidableEq, Repr

namespace CharKind

/-- `char::is_ascii_punctuation`, and the full-width marks. -/
def isPunct (c : Char) : Bool :=
  let n := c.toNat
  c ≠ '_' ∧
    ((33 ≤ n ∧ n ≤ 47) ∨ (58 ≤ n ∧ n ≤ 64) ∨ (91 ≤ n ∧ n ≤ 96) ∨ (123 ≤ n ∧ n ≤ 126) ∨
      n = 0xff01 ∨ n = 0xff0c ∨ n = 0xff1b ∨ n = 0xff1f)

def new (c : Char) : CharKind :=
  if isWhitespace c then space else if isPunct c then punct else other

def vary (self next : CharKind) : Gait → Bool
  | .fine => self ≠ next
  | .lean => self = other ∧ next ≠ other
  | .wide => (self = space) ≠ (next = space)

end CharKind

/-- `KillOpt` -/
inductive Kill where
  | all
  | bol
  | eol
  | backward
  | forward
  | unknown
  deriving DecidableEq, Repr

/-- `CompleteOpt`, with its name as it is displayed. -/
structure CompleteOpt where
  name : List Char
  value : Option (List Char)
  isDir : Bool
  deriving DecidableEq, Repr

def separator : Char := '/'

def CompleteOpt.completable (opt : CompleteOpt) : List Char :=
  opt.name ++ if opt.isDir then [separator] else []

/-- `Step`, for lists that have no page. -/
inductive Step where
  | top
  | bot
  | prev
  | next
  | offset (n : Int)
  | percent
  | vp (n : Int)
  deriving DecidableEq, Repr

/-- `Step::add` with neither limit nor offset, in a list of one element more than `last`. -/
def Step.add (pos last : Nat) : Step → Nat
  | top => 0
  | bot => last
  | prev => min (((pos : Int) - 1) % ((last : Int) + 1)).toNat last
  | next => min (((pos : Int) + 1) % ((last : Int) + 1)).toNat last
  | offset n => min ((pos : Int) + n).toNat last
  | percent => min pos last
  | vp n => min ((pos : Int) + (n * (last + 1)).tdiv 100).toNat last

/-! ### The input -/

/-- `InputHistory` -/
structure InputHistory where
  at' : Option Nat
  draft : List Char

/-- `completion` says that there is a callback for it. -/
structure Input where
  size : Nat × Nat
  snaps : InputSnaps
  history : InputHistory
  obscure : Bool
  completion : Bool

namespace Input

def snap (i : Input) : InputSnap := i.snaps.current

def value (i : Input) : List Char := i.snap.value

def mode (i : Input) : InputMode := i.snap.mode

/-- `self.size.width` -/
def limit (i : Input) : Nat := i.size.1

/-- Writing through `snap_mut`. -/
def put (i : Input) (snap : InputSnap) : Input :=
  { i with snaps := { i.snaps with current := snap } }

/-- `Input::partition`: the text up to the separator at or after the cursor, and what is behind. -/
def partition (i : Input) : Option (List Char × List Char) :=
  if i.snap.cursor ≤ i.snap.count then
    match (i.value.drop i.snap.cursor).findIdx? (· = separator) with
    | some n => some (i.value.take (i.snap.cursor + n), i.value.drop (i.snap.cursor + n + 1))
    | none => some (i.value, [])
  else none

/-- `Input::flush_trigger` -/
def flushTrigger (i : Input) : Option Input :=
  if i.completion then i.partition.map fun _ => i else some i

/-- `Input::flush_all` -/
def flushAll (i : Input) : Option Input :=
  { i with history := ⟨none, []⟩ }.flushTrigger

section widths
variable (w : Widths)

/-- `self.snaps.tag(..).then(|| self.flush_all())` -/
def tagged (i : Input) : Option Input :=
  let (snaps, new) := i.snaps.tag w i.limit
  if new then { i with snaps }.flushAll else some { i with snaps }

/-- The cursor is kept inside the value. -/
def clamp (snap : InputSnap) : InputSnap := { snap with cursor := min snap.last snap.cursor }

/-- `Input::handle_op`. An operation that is carried out changes the snapshot. -/
def handleOp (i : Input) (cursor : Nat) (inclusive : Bool) : Option Input :=
  let snap := i.snap
  match snap.op with
  | .none | .select _ => some (i.put (clamp { snap with cursor }))
  | .delete _ insert start => do
    let (s, e) := InputOp.span start cursor inclusive
    let value ← snap.splice s e []
    let mode := if insert then InputMode.insert else .normal
    (i.put (clamp { snap with value, op := .none, mode, cursor := s })).tagged w
  | .yank start => do
    let (s, e) := InputOp.span start cursor inclusive
    let _ ← snap.slice s e
    (i.put (clamp { snap with op := .none })).tagged w

/-- The offset after a move of the cursor from `old`, at most `limit` wide. -/
def scroll (snap : InputSnap) (limit old : Nat) : Option Nat :=
  let (new, scrolloff) := (snap.cursor, min 5 (limit / 2))
  if new ≤ old then do
    let s ← snap.slice 0 new
    let pad := (findWindow w.char (snap.shown s.reverse) 0 scrolloff).2
    some (if snap.offset ≤ new then min snap.offset (new - pad) else new - pad)
  else do
    let s ← snap.slice new snap.count
    let pad := (findWindow w.char (snap.shown s) 0 (scrolloff + snap.mode.delta)).2
    let s ← snap.slice 0 (new + pad)
    let most := (findWindow w.char (snap.shown s.reverse) 0 limit).2
    let width ← snap.width w snap.offset new
    some (if width < limit then max snap.offset (new + pad - most) else new + pad - most)

/-- `Input::move` -/
def move (i : Input) (step : MoveOptStep) (inOperating : Bool) : Option Input :=
  if inOperating ∧ i.snap.op = .none then some i
  else do
    let old := i.snap.cursor
    let i ← i.handleOp w (step.add i.value old) false
    if i.value = [] then some (i.put { i.snap with offset := 0 })
    else do
      let offset ← scroll w i.snap i.limit old
      let i := i.put { i.snap with offset }
      if i.snap.cursor ≠ old then i.flushTrigger else some i

/-- `act!(r#move, self, n)` -/
def moveBy (i : Input) (n : Int) : Option Input := i.move w (.offset n) false

/-! ### Actions -/

/-- `Input::escape` -/
def escape (i : Input) : Option Input := do
  let i ← match i.mode with
    | .normal => some (i.put { i.snap with op := .none })
    | .insert => (i.put { i.snap with mode := .normal }).moveBy w (-1)
    | .replace => some (i.put { i.snap with mode := .normal })
  some { i with snaps := (i.snaps.tag w i.limit).1 }

/-- `Input::insert` -/
def insert (i : Input) (append : Bool) : Option Input :=
  if i.mode = .normal then
    let i := i.put { i.snap with op := .none, mode := .insert }
    if append then i.moveBy w 1 else some i
  else some i

/-- `Input::visual` -/
def visual (i : Input) : Option Input := do
  let i ← if i.mode ≠ .normal then i.escape w else some i
  match i.snap.op with
  | .select _ => some i
  | _ => some (if i.value = [] then i else i.put { i.snap with op := .select i.snap.cursor })

/-- `Input::replace` -/
def replace (i : Input) : Input :=
  if i.mode = .normal then i.put { i.snap with op := .none, mode := .replace } else i

/-- `Input::delete` -/
def delete (i : Input) (cut insert : Bool) : Option Input :=
  match i.snap.op with
  | .none => some (i.put { i.snap with op := .delete cut insert i.snap.cursor })
  | .select start => do
    let i ← (i.put { i.snap with op := .delete cut insert start }).handleOp w i.snap.cursor true
    i.moveBy w 0
  | .delete .. => (i.put { i.snap with op := .delete cut insert 0 }).moveBy w i.snap.len
  | .yank _ => some i

/-- `Input::yank` -/
def yank (i : Input) : Option Input :=
  match i.snap.op with
  | .none => some (i.put { i.snap with op := .yank i.snap.cursor })
  | .select start => do
    let i ← (i.put { i.snap with op := .yank start }).handleOp w i.snap.cursor true
    i.moveBy w 0
  | .yank _ => (i.put { i.snap with op := .yank 0 }).moveBy w i.snap.len
  | .delete .. => some i

/-- Line breaks become spaces. -/
def oneLine (s : List Char) : List Char := s.map fun c => if c = '\r' ∨ c = '\n' then ' ' else c

/-- `Input::insert_str` -/
def insertStr (i : Input) (s : List Char) : Option Input := do
  let value ← i.snap.splice i.snap.cursor i.snap.cursor (oneLine s)
  let i ← (i.put { i.snap with value }).moveBy w s.length
  i.flushAll

/-- `Input::replace_str` -/
def replaceStr (i : Input) (s : List Char) : Option Input := do
  let snap := { i.snap with mode := .normal }
  let value ← snap.splice snap.cursor (min (snap.cursor + 1) snap.count)
    (if snap.cursor < snap.count then oneLine s else [])
  (i.put { snap with value }).tagged w

/-- `Input::feed` -/
def feed (i : Input) (s : List Char) : Option Input :=
  match i.mode with
  | .normal => some i
  | .insert => i.insertStr w s
  | .replace => i.replaceStr w s

/-- `Input::paste` -/
def paste (i : Input) (before : Bool) (clipboard : List Char) : Option Input := do
  let i ← match i.snap.op.start with
    | some start => (i.put { i.snap with op := .delete false false start }).handleOp w i.snap.cursor true
    | none => some i
  if clipboard = [] then some i
  else do
    let i ← i.insert w !before
    let i ← i.insertStr w clipboard
    i.escape w

/-- `Input::undo` -/
def undo (i : Input) : Option Input :=
  if i.snap.op ≠ .none then some i
  else
    match i.snaps.undo with
    | none => some i
    | some snaps => do
      let i ← { i with snaps }.moveBy w 0
      if i.mode = .insert then i.escape w else some i

/-- `Input::redo` -/
def redo (i : Input) : Option Input :=
  { i with snaps := i.snaps.redo.getD i.snaps }.moveBy w 0

/-- `CasefyOpt::transform` -/
def transform (upper : Bool) (s : List Char) : List Char :=
  s.map fun c => if upper then c.toUpper else c.toLower

/-- `Input::casefy` -/
def casefy (i : Input) (upper : Bool) : Option Input :=
  match i.snap.op with
  | .select start => do
    let (s, e) := InputOp.span start i.snap.cursor true
    let part ← i.snap.slice s e
    let value ← i.snap.splice s e (transform upper part)
    let i ← (i.put { i.snap with value, op := .none, cursor := s }).tagged w
    i.moveBy w 0
  | _ => some i

/-- `Input::backspace` -/
def backspace (i : Input) (under : Bool) : Option Input :=
  if ¬under ∧ i.snap.cursor < 1 then some i
  else if under ∧ i.snap.count ≤ i.snap.cursor then some i
  else do
    let at' := if under then i.snap.cursor else i.snap.cursor - 1
    let value ← i.snap.splice at' (at' + 1) []
    let i ← (i.put { i.snap with value }).moveBy w (if under then 0 else -1)
    i.flushAll

/-- `Input::find_word_boundary`, in characters. -/
def findWordBoundary (s : List Char) : Nat :=
  let n := (s.takeWhile fun c => CharKind.new c = .space).length
  match s.drop n with
  | [] => n
  | first :: rest =>
    n + (rest.takeWhile fun c => CharKind.new c = CharKind.new first).length + 1

/-- `Input::kill_range` over these characters. The cursor is set to where they begin, in bytes. -/
def killRange (i : Input) (s e : Nat) : Option Input := do
  let value ← i.snap.splice s e []
  let i := i.put { i.snap with value, cursor := bytes (i.value.take s) }
  if s = e then some i
  else do
    let i ← i.moveBy w 0
    i.flushAll

/-- `Input::kill` -/
def kill (i : Input) (kind : Kill) : Option Input :=
  let (cursor, count) := (min i.snap.cursor i.snap.count, i.snap.count)
  match kind with
  | .all => i.killRange w 0 count
  | .bol => i.killRange w 0 cursor
  | .eol => i.killRange w cursor count
  | .backward => i.killRange w (cursor - findWordBoundary (i.value.take cursor).reverse) cursor
  | .forward => i.killRange w cursor (cursor + findWordBoundary (i.value.drop cursor))
  | .unknown => some i

/-- `rsplit_once` at a separator: what is before the last one. -/
def beforeLast (s : List Char) : Option (List Char) :=
  if separator ∈ s then some ((s.reverse.dropWhile (· ≠ separator)).drop 1).reverse else none

/-- What `Input::complete` puts in place of the value. -/
def completed (before after : List Char) (opt : CompleteOpt) : List Char :=
  match opt.value with
  | some value => value ++ after
  | none =>
    match beforeLast before with
    | some dir => dir ++ separator :: (opt.completable ++ after)
    | none => opt.completable ++ after

/-- `Input::complete` -/
def complete (i : Input) (opt : CompleteOpt) : Option Input := do
  let (before, after) ← i.partition
  let new := completed before after opt
  if new = i.value then some i
  else do
    let delta := (new.length : Int) - i.snap.count
    let i ← (i.put { i.snap with value := new }).moveBy w delta
    i.flushAll

/-- Where the walk of `Input::backward` over the characters before the cursor stops. -/
def backwardStop (gait : Gait) : CharKind → Nat → List Char → Option Nat
  | _, _, [] => none
  | prev, n, c :: s =>
    let kind := CharKind.new c
    if prev ≠ .space ∧ prev.vary kind gait then some n else backwardStop gait kind (n + 1) s

/-- `Input::backward` -/
def backward (i : Input) (gait : Gait) : Option Input :=
  if i.snap.cursor = 0 then i.moveBy w 0
  else
    match (i.value.take i.snap.cursor).reverse with
    | [] => none
    | c :: s =>
      match backwardStop gait (.new c) 1 s with
      | some n => i.moveBy w (-n)
      | none => i.moveBy w (-i.snap.len)

/-- Where the walk of `Input::forward` over the characters after the cursor stops. -/
def forwardStop (gait : Gait) (endOfWord : Bool) : CharKind → Nat → List Char → Option Nat
  | _, _, [] => none
  | prev, n, c :: s =>
    let kind := CharKind.new c
    let stop :=
      if endOfWord then prev ≠ .space ∧ prev.vary kind gait ∧ n ≠ 1
      else kind ≠ .space ∧ kind.vary prev gait
    if stop then some n else forwardStop gait endOfWord kind (n + 1) s

/-- `Input::forward` -/
def forward (i : Input) (gait : Gait) (endOfWord : Bool) : Option Input :=
  match i.value.drop i.snap.cursor with
  | [] => i.moveBy w 0
  | c :: s =>
    match forwardStop gait endOfWord (.new c) 1 s with
    | none => i.moveBy w i.snap.len
    | some n =>
      match i.snap.op with
      | .none | .select _ =>
        if endOfWord then if n < i.mode.delta then none else i.moveBy w (n - i.mode.delta : Nat)
        else i.moveBy w n
      | _ => i.moveBy w n

/-- `Input::recall_to` -/
def recallTo (i : Input) (value : List Char) : Option Input :=
  let snap := { InputSnap.new w value i.obscure with mode := i.mode }.resize w i.limit
  (i.put snap).flushTrigger

/-- `Input::recall` -/
def «recall» (i : Input) (items : List (List Char)) (step : Step) : Option Input :=
  if items = [] then some i
  else
    let pos := i.history.at'.getD items.length
    let next := step.add pos items.length
    if next = pos then some i
    else if next = items.length then
      { i with history := ⟨none, []⟩ }.recallTo w i.history.draft
    else
      let draft := if i.history.at'.isNone then i.value else i.history.draft
      items[next]?.bind fun item => { i with history := ⟨some next, draft⟩ }.recallTo w item

/-- `Input::repos` -/
def repos (i : Input) (size : Nat × Nat) : Input :=
  if i.size ≠ size then { i with size }.put (i.snap.resize w size.1) else i

/-- `Input::new` -/
def new (value : List Char) (cursor : Option Nat) (obscure completion : Bool) : Option Input :=
  let i : Input :=
    { size := (0, 0), snaps := .new w value obscure, history := ⟨none, []⟩, obscure, completion }
  match cursor with
  | some cursor => (i.put { i.snap with cursor }).moveBy w 0
  | none => some i

/-! ### Queries -/

/-- `Input::display` -/
def display (i : Input) : Option (List Char) :=
  let (s, e) := i.snap.window w i.limit
  if i.obscure then some (List.replicate (e - s) bullet) else i.snap.slice s e

/-- `Input::cursor` -/
def cursor (i : Input) : Option Nat := i.snap.width w i.snap.offset i.snap.cursor

/-- The part of the selection, or of what an operation has begun with, that is in the window. -/
def selection (i : Input) (start : Nat) : Nat × Nat :=
  let (s, e) :=
    if start < i.snap.cursor then (start, i.snap.cursor) else (i.snap.cursor + 1, start + 1)
  let (first, last) := i.snap.window w i.limit
  (max s first, min e last)

/-- `Input::selected`, whose sum of two `u16` may overflow. -/
def selected (i : Input) : Option (Option (Nat × Nat)) :=
  match i.snap.op.start with
  | none => some none
  | some start => do
    let (s, e) := i.selection w start
    let before ← i.snap.width w i.snap.offset s
    let inside ← i.snap.width w s e
    if before + inside < 2 ^ 16 then some (some (before, before + inside)) else none

end widths
end Input

/-! ### Runs -/

inductive Action where
  | move (step : MoveOptStep) (inOperating : Bool)
  | feed (s : List Char)
  | backward (gait : Gait)
  | forward (gait : Gait) (endOfWord : Bool)
  | insert (append : Bool)
  | visual
  | replace
  | delete (cut insert : Bool)
  | yank
  | paste (before : Bool) (clipboard : List Char)
  | undo
  | redo
  | casefy (upper : Bool)
  | backspace (under : Bool)
  | kill (kind : Kill)
  | escape
  | complete (opt : CompleteOpt)
  | recall (items : List (List Char)) (step : Step)
  | repos (size : Nat × Nat)
  deriving DecidableEq, Repr

namespace Input
variable (w : Widths)

/-- `Input::execute` for what goes through it, which depends on the mode. -/
def act (i : Input) : Action → Option Input
  | .move step inOperating => i.move w step inOperating
  | .feed s => i.feed w s
  | .backward gait => i.backward w gait
  | .forward gait endOfWord => i.forward w gait endOfWord
  | .insert append => if i.mode = .normal then i.insert w append else some i
  | .visual => if i.mode = .normal ∨ i.mode = .insert then i.visual w else some i
  | .replace => if i.mode = .normal then some i.replace else some i
  | .delete cut insert => if i.mode = .normal then i.delete w cut insert else some i
  | .yank => if i.mode = .normal then i.yank w else some i
  | .paste before clipboard => if i.mode = .normal then i.paste w before clipboard else some i
  | .undo => if i.mode = .normal then i.undo w else some i
  | .redo => if i.mode = .normal then i.redo w else some i
  | .casefy upper => if i.mode = .normal then i.casefy w upper else some i
  | .backspace under => if i.mode = .insert then i.backspace w under else some i
  | .kill kind => if i.mode = .insert then i.kill w kind else some i
  | .escape => i.escape w
  | .complete opt => i.complete w opt
  | .recall items step => i.recall w items step
  | .repos size => some (i.repos w size)

end Input
end Yazi.Widgets
