import Mathlib.Data.List.Nodup
import Mathlib.Logic.Function.Basic
import Yazi.Base.Keyed
import Yazi.Base.Run

/-!
# The pool of symbols

A symbol is a pointer to bytes that the pool owns. The table of the pool counts the symbols of
each pointer; it is a hash table whose keys are found either by content, when a value is
interned, or by the pointer itself, when a symbol is cloned or dropped. The hash of a key is
always that of its content and is computed before the lock is taken.
-/
namespace Yazi.Shared
open Yazi.Base

/-- `NonNull<[u8]>`: an address and a length. -/
@[ext] structure SymbolPtr where
  addr : Nat
  len : Nat
deriving DecidableEq, Repr

namespace Pool

/-- What must not happen: an `unreachable!()`, a count below zero, a read of freed memory. -/
inductive Fault where
  | vacant
  | underflow
  | dangling
deriving DecidableEq, Repr

/-- The boxes that are allocated. -/
abbrev Heap := Assoc SymbolPtr (List UInt8)

/-- `SymbolPtr::bytes` -/
def Heap.bytes (heap : Heap) (ptr : SymbolPtr) : Except Fault (List UInt8) :=
  match heap.get? ptr with
  | some bytes => .ok bytes
  | none => .error .dangling

/-- Where the allocator may put a new box: an empty one is dangling at the alignment of a byte,
any other one does not overlap a box that is in use. -/
def Heap.free (heap : Heap) (addr len : Nat) : Bool :=
  if len = 0 then addr = 1
  else addr ≠ 0 ∧ ∀ ptr ∈ heap.keys, ptr.len = 0 ∨ addr + len ≤ ptr.addr ∨ ptr.addr + ptr.len ≤ addr

/-- A bucket of the table: the hash it was inserted under, the key and the count. -/
structure Slot where
  hash : UInt64
  ptr : SymbolPtr
  count : Nat
deriving DecidableEq, Repr

/-- `RawEntryMut`: the bucket that was found among the others, or none. -/
inductive RawEntry where
  | occupied (before : List Slot) (slot : Slot) (after : List Slot)
  | vacant
deriving Repr

/-- `raw_entry_mut().from_key_hashed_nocheck(hash, key)`: the bucket under this hash whose key is
equivalent to the given one. Any bucket may be compared on the way. -/
def fromKeyHashedNocheck (hash : UInt64) (equivalent : SymbolPtr → Except Fault Bool) :
    List Slot → Except Fault RawEntry
  | [] => .ok .vacant
  | slot :: rest =>
    match equivalent slot.ptr with
    | .error fault => .error fault
    | .ok same =>
      if same && slot.hash == hash then .ok (.occupied [] slot rest)
      else
        match fromKeyHashedNocheck hash equivalent rest with
        | .ok (.occupied before found after) => .ok (.occupied (slot :: before) found after)
        | other => other

/-- `Borrow<[u8]>`: a key is compared with a value by its content. -/
def sameBytes (heap : Heap) (value : List UInt8) (ptr : SymbolPtr) : Except Fault Bool :=
  match heap.bytes ptr with
  | .ok bytes => .ok (bytes == value)
  | .error fault => .error fault

/-- `#[derive(PartialEq)]`: a key is compared with a key by address and length. -/
def samePtr (key ptr : SymbolPtr) : Except Fault Bool := .ok (ptr == key)

/-- What the lock protects, and the boxes its keys point to. -/
structure Memory where
  heap : Heap := []
  table : List Slot := []
deriving DecidableEq, Repr

namespace Memory

/-- `Pool::<[u8]>::intern`, from the lock on. A new box is put at `addr`. -/
def intern (memory : Memory) (hash : UInt64) (value : List UInt8) (addr : Nat) :
    Except Fault (Memory × SymbolPtr) :=
  match fromKeyHashedNocheck hash (sameBytes memory.heap value) memory.table with
  | .error fault => .error fault
  | .ok (.occupied before slot after) =>
    let counted := { slot with count := slot.count + 1 }
    .ok ({ memory with table := before ++ counted :: after }, slot.ptr)
  | .ok .vacant =>
    let ptr : SymbolPtr := ⟨addr, value.length⟩
    .ok (⟨memory.heap.insert ptr value, memory.table ++ [⟨hash, ptr, 1⟩]⟩, ptr)

/-- `Symbol::clone`, from the lock on. -/
def clone (memory : Memory) (hash : UInt64) (ptr : SymbolPtr) : Except Fault Memory :=
  match fromKeyHashedNocheck hash (samePtr ptr) memory.table with
  | .error fault => .error fault
  | .ok (.occupied before slot after) =>
    .ok { memory with table := before ++ { slot with count := slot.count + 1 } :: after }
  | .ok .vacant => .error .vacant

/-- `Symbol::drop`, from the lock on. -/
def drop (memory : Memory) (hash : UInt64) (ptr : SymbolPtr) : Except Fault Memory :=
  match fromKeyHashedNocheck hash (samePtr ptr) memory.table with
  | .error fault => .error fault
  | .ok (.occupied before slot after) =>
    if slot.count = 0 then .error .underflow
    else if slot.count - 1 = 0 then
      -- The bucket goes, and `Box::from_non_null` frees what it points to.
      match memory.heap.get? ptr with
      | none => .error .dangling
      | some _ => .ok ⟨memory.heap.erase ptr, before ++ after⟩
    else .ok { memory with table := before ++ { slot with count := slot.count - 1 } :: after }
  | .ok .vacant => .error .vacant

end Memory
end Pool

/-- The two types of symbols. -/
inductive SymbolKind where
  | bytes
  | str
deriving DecidableEq, Repr

structure Symbol where
  kind : SymbolKind
  ptr : SymbolPtr
deriving DecidableEq, Repr

namespace Symbol

/-- `PartialEq for Symbol` -/
def eq (a b : Symbol) : Bool := a.ptr == b.ptr

/-- `Hash for Symbol`: what it feeds to the hasher is the raw pointer, a fat one. -/
def hashed (a : Symbol) : Nat × Nat := (a.ptr.addr, a.ptr.len)

end Symbol

/-- A call that is under way. The hash of `intern`, `clone` and `drop` is computed, the lock not
yet taken; `convert` is the rest of `Pool::<str>::intern`, after the inner call has returned. -/
inductive Call where
  | intern (kind : SymbolKind) (value : List UInt8) (hash : UInt64)
  | convert (symbol : Nat)
  | clone (symbol : Nat) (hash : UInt64)
  | drop (symbol : Nat) (hash : UInt64)
deriving DecidableEq, Repr

namespace Call

/-- The symbol that the call was given. -/
def concerns : Call → Option Nat
  | intern .. => none
  | convert symbol | clone symbol _ | drop symbol _ => some symbol

/-- The symbol that the call was given for good; `clone` only borrows its own. -/
def consumes : Call → Option Nat
  | intern .. | clone .. => none
  | convert symbol | drop symbol _ => some symbol

end Call

/-- The pool, the symbols that are alive in the program and the calls that are under way, each
under a number. -/
structure Pool where
  memory : Pool.Memory := {}
  symbols : Assoc Nat Symbol := []
  calls : Assoc Nat Call := []
deriving DecidableEq, Repr

namespace Pool

inductive Label where
  /-- `Pool::intern` of a value, as a symbol of either type. -/
  | intern (call : Nat) (kind : SymbolKind) (value : List UInt8)
  | clone (call symbol : Nat)
  | drop (call symbol : Nat)
  /-- A call gets the lock and does its work; `fresh` names the symbol it returns. -/
  | lock (call fresh addr : Nat)
  /-- `Symbol::new(symbol.into_ptr())` -/
  | convert (call : Nat)
deriving DecidableEq, Repr

/-- `Symbol::default` -/
def Label.default (call : Nat) (kind : SymbolKind) : Label := .intern call kind []

def start (pool : Pool) (number : Nat) (call : Call) : Pool :=
  { pool with calls := pool.calls.insert number call }

def finish (pool : Pool) (number : Nat) : Pool := { pool with calls := pool.calls.erase number }

/-- A symbol that is borrowed can be borrowed again, but neither moved nor dropped. -/
def lent (pool : Pool) (symbol : Nat) : Bool :=
  pool.calls.values.any fun call => call.concerns = some symbol

def moved (pool : Pool) (symbol : Nat) : Bool :=
  pool.calls.values.any fun call => call.consumes = some symbol

variable (computeHash : List UInt8 → UInt64)

/-- One step of some thread. `none` is a step that cannot be taken. -/
def step (pool : Pool) : Label → Option (Except Fault Pool)
  | .intern call kind value =>
    if (pool.calls.get? call).isSome then none
    else some (.ok (pool.start call (.intern kind value (computeHash value))))
  | .clone call symbol =>
    match pool.symbols.get? symbol with
    | none => none
    | some source =>
      if (pool.calls.get? call).isSome || pool.moved symbol then none
      else
        match pool.memory.heap.bytes source.ptr with
        | .error fault => some (.error fault)
        | .ok bytes => some (.ok (pool.start call (.clone symbol (computeHash bytes))))
  | .drop call symbol =>
    match pool.symbols.get? symbol with
    | none => none
    | some source =>
      if (pool.calls.get? call).isSome || pool.lent symbol then none
      else
        match pool.memory.heap.bytes source.ptr with
        | .error fault => some (.error fault)
        | .ok bytes => some (.ok (pool.start call (.drop symbol (computeHash bytes))))
  | .lock call fresh addr =>
    match pool.calls.get? call with
    | none | some (.convert _) => none
    | some (.intern kind value hash) =>
      if (pool.symbols.get? fresh).isSome || !pool.memory.heap.free addr value.length then none
      else
        match pool.memory.intern hash value addr with
        | .error fault => some (.error fault)
        | .ok (memory, ptr) =>
          let pool := { pool with memory, symbols := pool.symbols.insert fresh ⟨.bytes, ptr⟩ }
          match kind with
          | .bytes => some (.ok (pool.finish call))
          | .str => some (.ok (pool.start call (.convert fresh)))
    | some (.clone symbol hash) =>
      match pool.symbols.get? symbol with
      | none => none
      | some source =>
        if (pool.symbols.get? fresh).isSome then none
        else
          match pool.memory.clone hash source.ptr with
          | .error fault => some (.error fault)
          | .ok memory =>
            let pool := { pool with memory, symbols := pool.symbols.insert fresh source }
            some (.ok (pool.finish call))
    | some (.drop symbol hash) =>
      match pool.symbols.get? symbol with
      | none => none
      | some source =>
        match pool.memory.drop hash source.ptr with
        | .error fault => some (.error fault)
        | .ok memory =>
          let pool := { pool with memory, symbols := pool.symbols.erase symbol }
          some (.ok (pool.finish call))
  | .convert call =>
    match pool.calls.get? call with
    | some (.convert symbol) =>
      match pool.symbols.get? symbol with
      | none => none
      | some source =>
        let symbols := pool.symbols.insert symbol ⟨.str, source.ptr⟩
        some (.ok ({ pool with symbols }.finish call))
    | _ => none

/-- The step of a program that has not gone wrong. -/
def advance (pool : Pool) (label : Label) : Option Pool :=
  match pool.step computeHash label with
  | some (.ok next) => some next
  | _ => none

/-- What a symbol reads (`as_ref`), as long as its box is there. -/
def value (pool : Pool) (symbol : Symbol) : Option (List UInt8) :=
  pool.memory.heap.get? symbol.ptr

/-- The count that the table holds for a value. -/
def count (pool : Pool) (value : List UInt8) : Option Nat :=
  (pool.memory.table.find? fun slot => pool.memory.heap.get? slot.ptr = some value).map (·.count)

/-- How many symbols of the program have this value. -/
def live (pool : Pool) (value : List UInt8) : Nat :=
  pool.symbols.values.countP fun symbol => pool.value symbol = some value

end Pool
end Yazi.Shared
