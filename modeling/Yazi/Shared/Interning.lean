import Yazi.Shared.Pool

/-!
# The counts of the pool

The table and the boxes are sound for a number of owners of each pointer: the counts are these
numbers, every box is the key of exactly one bucket, and no two boxes hold the same value. The
operations of the pool keep this, with one owner more or one less. The owners are the symbols
of the program, and a symbol that a call holds is neither moved nor dropped by another one.
-/
namespace Yazi.Shared
open Yazi.Base

variable {computeHash : List UInt8 → UInt64}

namespace Pool

/-! ### Finding a bucket -/

theorem fromKeyHashedNocheck_spec (hash : UInt64) {equivalent : SymbolPtr → Except Fault Bool}
    (same : SymbolPtr → Bool) {table : List Slot}
    (readable : ∀ slot ∈ table, equivalent slot.ptr = .ok (same slot.ptr)) :
    (fromKeyHashedNocheck hash equivalent table = .ok .vacant ∧
      ∀ slot ∈ table, same slot.ptr = true → slot.hash ≠ hash) ∨
    ∃ before slot after, table = before ++ slot :: after ∧
      fromKeyHashedNocheck hash equivalent table = .ok (.occupied before slot after) ∧
      same slot.ptr = true ∧ slot.hash = hash := by
  induction table with
  | nil => exact .inl ⟨rfl, nofun⟩
  | cons slot rest ih =>
    have here := readable slot (List.mem_cons_self ..)
    rw [fromKeyHashedNocheck, here]
    dsimp only
    split
    · next hit =>
      obtain ⟨equal, hashed⟩ := Bool.and_eq_true_iff.mp hit
      exact .inr ⟨[], slot, rest, rfl, rfl, equal, eq_of_beq hashed⟩
    · next miss =>
      rcases ih fun other member => readable other (List.mem_cons_of_mem _ member) with
        ⟨vacant, absent⟩ | ⟨before, found, after, whole, occupied, equal, hashed⟩
      · left
        rw [vacant]
        refine ⟨rfl, fun other member equal hashed => ?_⟩
        rcases List.mem_cons.mp member with rfl | member
        · exact miss (Bool.and_eq_true_iff.mpr ⟨equal, beq_iff_eq.mpr hashed⟩)
        · exact absent other member equal hashed
      · right
        rw [occupied]
        exact ⟨slot :: before, found, after, congrArg (slot :: ·) whole, rfl, equal, hashed⟩

/-! ### The table and the boxes -/

/-- The table and the boxes agree with a number of owners of each pointer. -/
structure Memory.Sound (computeHash : List UInt8 → UInt64) (memory : Memory)
    (owners : SymbolPtr → Nat) : Prop where
  single : (memory.table.map (·.ptr)).Nodup
  backed : ∀ slot ∈ memory.table, ∃ value, memory.heap.get? slot.ptr = some value ∧
    slot.hash = computeHash value
  apart : ∀ a ∈ memory.table, ∀ b ∈ memory.table,
    memory.heap.get? a.ptr = memory.heap.get? b.ptr → a.ptr = b.ptr
  counted : ∀ slot ∈ memory.table, slot.count = owners slot.ptr ∧ 0 < slot.count
  entered : ∀ ptr, 0 < owners ptr → ∃ slot ∈ memory.table, slot.ptr = ptr
  owned : ∀ ptr value, memory.heap.get? ptr = some value →
    ptr.len = value.length ∧ ∃ slot ∈ memory.table, slot.ptr = ptr

namespace Memory

variable {memory : Memory} {owners : SymbolPtr → Nat}

/-- One owner more, and one less. -/
def gain (owners : SymbolPtr → Nat) (ptr : SymbolPtr) : SymbolPtr → Nat :=
  Function.update owners ptr (owners ptr + 1)

def lose (owners : SymbolPtr → Nat) (ptr : SymbolPtr) : SymbolPtr → Nat :=
  Function.update owners ptr (owners ptr - 1)

/-- Changing the count of one bucket together with the number of its owners keeps the rest. -/
theorem Sound.recount (sound : memory.Sound computeHash owners) {before after : List Slot}
    {slot : Slot} (whole : memory.table = before ++ slot :: after) {count : Nat}
    (positive : 0 < count) :
    Sound computeHash { memory with table := before ++ { slot with count } :: after }
      (Function.update owners slot.ptr count) := by
  obtain ⟨heap, table⟩ := memory
  subst whole
  -- The buckets of the new table are those of the old one, but for the count of one.
  have ptrs : (before ++ { slot with count } :: after).map (·.ptr) =
      (before ++ slot :: after).map (·.ptr) := by simp
  have old : ∀ other ∈ before ++ { slot with count } :: after,
      ∃ a ∈ before ++ slot :: after, a.ptr = other.ptr ∧ a.hash = other.hash ∧
        (other = { slot with count } ∨ a = other ∧ other.ptr ≠ slot.ptr) := by
    have distinct := sound.single
    simp only [List.map_append, List.map_cons, List.nodup_append, List.nodup_cons] at distinct
    intro other member
    rcases List.mem_append.mp member with early | late
    · refine ⟨other, List.mem_append_left _ early, rfl, rfl, .inr ⟨rfl, ?_⟩⟩
      exact distinct.2.2 _ (List.mem_map_of_mem early) _ (List.mem_cons_self ..)
    · rcases List.mem_cons.mp late with rfl | late
      · exact ⟨slot, by simp, rfl, rfl, .inl rfl⟩
      · refine ⟨other, by simp [late], rfl, rfl, .inr ⟨rfl, fun same => ?_⟩⟩
        exact distinct.2.1.1 (same ▸ List.mem_map_of_mem late)
  have present : ∀ ptr, (∃ a ∈ before ++ slot :: after, a.ptr = ptr) →
      ∃ other ∈ before ++ { slot with count } :: after, other.ptr = ptr := by
    rintro ptr ⟨a, member, rfl⟩
    have inside : a.ptr ∈ (before ++ { slot with count } :: after).map (·.ptr) := by
      rw [ptrs]
      exact List.mem_map_of_mem member
    exact List.mem_map.mp inside
  constructor
  · rw [ptrs]
    exact sound.single
  · intro other member
    obtain ⟨a, inside, samePtr, sameHash, -⟩ := old other member
    rw [← samePtr, ← sameHash]
    exact sound.backed a inside
  · intro a memberA b memberB equal
    obtain ⟨a', insideA, ptrA, -⟩ := old a memberA
    obtain ⟨b', insideB, ptrB, -⟩ := old b memberB
    rw [← ptrA, ← ptrB] at equal ⊢
    exact sound.apart a' insideA b' insideB equal
  · intro other member
    obtain ⟨a, inside, -, -, rfl | ⟨rfl, different⟩⟩ := old other member
    · refine ⟨?_, positive⟩
      rw [Function.update_self]
    · rw [Function.update_of_ne different]
      exact sound.counted a inside
  · intro ptr owner
    apply present
    by_cases same : ptr = slot.ptr
    · exact ⟨slot, by simp, same.symm⟩
    · rw [Function.update_of_ne same] at owner
      exact sound.entered ptr owner
  · intro ptr value found
    obtain ⟨long, inside⟩ := sound.owned ptr value found
    exact ⟨long, present ptr inside⟩

/-- An owned pointer is found in the table under the hash of what it points to. -/
theorem Sound.find (sound : memory.Sound computeHash owners) {ptr : SymbolPtr}
    (owner : 0 < owners ptr) {value : List UInt8} (holds : memory.heap.get? ptr = some value) :
    ∃ before slot after, memory.table = before ++ slot :: after ∧
      fromKeyHashedNocheck (computeHash value) (samePtr ptr) memory.table =
        .ok (.occupied before slot after) ∧ slot.ptr = ptr := by
  have readable : ∀ slot ∈ memory.table, samePtr ptr slot.ptr = .ok (slot.ptr == ptr) :=
    fun _ _ => rfl
  rcases fromKeyHashedNocheck_spec (computeHash value) (· == ptr) readable with ⟨-, absent⟩ | ⟨before, slot, after, whole, found, equal, -⟩
  · obtain ⟨slot, member, rfl⟩ := sound.entered ptr owner
    obtain ⟨bytes, stored, hashed⟩ := sound.backed slot member
    cases holds.symm.trans stored
    exact absurd hashed (absent slot member BEq.rfl)
  · exact ⟨before, slot, after, whole, found, eq_of_beq equal⟩

theorem Sound.owned_value (sound : memory.Sound computeHash owners) {ptr : SymbolPtr}
    (owner : 0 < owners ptr) : ∃ value, memory.heap.get? ptr = some value := by
  obtain ⟨slot, member, rfl⟩ := sound.entered ptr owner
  obtain ⟨value, stored, -⟩ := sound.backed slot member
  exact ⟨value, stored⟩

theorem clone_spec (sound : memory.Sound computeHash owners) {ptr : SymbolPtr}
    (owner : 0 < owners ptr) {value : List UInt8} (holds : memory.heap.get? ptr = some value) :
    ∃ next, memory.clone (computeHash value) ptr = .ok next ∧ next.heap = memory.heap ∧
      next.Sound computeHash (gain owners ptr) := by
  obtain ⟨before, slot, after, whole, found, rfl⟩ := sound.find owner holds
  rw [clone, found]
  refine ⟨_, rfl, rfl, ?_⟩
  have count := (sound.counted slot (by simp [whole])).1
  rw [gain, ← count]
  exact sound.recount whole (Nat.succ_pos _)

theorem drop_spec (sound : memory.Sound computeHash owners) {ptr : SymbolPtr}
    (owner : 0 < owners ptr) {value : List UInt8} (holds : memory.heap.get? ptr = some value) :
    ∃ next, memory.drop (computeHash value) ptr = .ok next ∧
      next.Sound computeHash (lose owners ptr) ∧
      (1 < owners ptr → next.heap = memory.heap) ∧
      ∀ other, other ≠ ptr → next.heap.get? other = memory.heap.get? other := by
  obtain ⟨before, slot, after, whole, found, rfl⟩ := sound.find owner holds
  have inside : slot ∈ memory.table := by simp [whole]
  obtain ⟨count, positive⟩ := sound.counted slot inside
  rw [drop, found]
  dsimp only
  rw [if_neg (Nat.ne_of_gt positive)]
  split
  · next last =>
    rw [holds]
    refine ⟨_, rfl, ?_, fun more => by omega, fun other different => ?_⟩
    · obtain ⟨heap, table⟩ := memory
      subst whole
      have kept : ∀ other, other ≠ slot.ptr →
          (Assoc.erase heap slot.ptr).get? other = heap.get? other := by
        intro other different
        rw [Assoc.get?_erase, if_neg fun same => different (eq_of_beq same).symm]
      have distinct := sound.single
      simp only [List.map_append, List.map_cons, List.nodup_append, List.nodup_cons] at distinct
      have rest : ∀ other ∈ before ++ after,
          other ∈ before ++ slot :: after ∧ other.ptr ≠ slot.ptr := by
        intro other member
        rcases List.mem_append.mp member with early | late
        · refine ⟨List.mem_append_left _ early, ?_⟩
          exact distinct.2.2 _ (List.mem_map_of_mem early) _ (List.mem_cons_self ..)
        · exact ⟨by simp [late], fun same => distinct.2.1.1 (same ▸ List.mem_map_of_mem late)⟩
      have present : ∀ ptr, ptr ≠ slot.ptr → (∃ a ∈ before ++ slot :: after, a.ptr = ptr) →
          ∃ a ∈ before ++ after, a.ptr = ptr := by
        rintro ptr different ⟨a, member, rfl⟩
        refine ⟨a, ?_, rfl⟩
        simp only [List.mem_append, List.mem_cons] at member ⊢
        rcases member with early | rfl | late
        · exact .inl early
        · exact absurd rfl different
        · exact .inr late
      constructor
      · refine sound.single.sublist (List.Sublist.map _ ?_)
        exact List.Sublist.append_left (List.sublist_cons_self ..) _
      · intro other member
        obtain ⟨was, different⟩ := rest other member
        rw [kept _ different]
        exact sound.backed other was
      · intro a memberA b memberB
        obtain ⟨wasA, differentA⟩ := rest a memberA
        obtain ⟨wasB, differentB⟩ := rest b memberB
        rw [kept _ differentA, kept _ differentB]
        exact sound.apart a wasA b wasB
      · intro other member
        obtain ⟨was, different⟩ := rest other member
        rw [lose, Function.update_of_ne different]
        exact sound.counted other was
      · intro ptr owner
        have different : ptr ≠ slot.ptr := by
          rintro rfl
          rw [lose, Function.update_self] at owner
          omega
        rw [lose, Function.update_of_ne different] at owner
        exact present ptr different (sound.entered ptr owner)
      · intro ptr value found
        have different : ptr ≠ slot.ptr := by
          rintro rfl
          rw [Assoc.get?_erase, if_pos BEq.rfl] at found
          cases found
        rw [kept _ different] at found
        obtain ⟨long, was⟩ := sound.owned ptr value found
        exact ⟨long, present ptr different was⟩
    · rw [Assoc.get?_erase, if_neg fun same => different (eq_of_beq same).symm]
  · next more =>
    refine ⟨_, rfl, ?_, fun _ => rfl, fun _ _ => rfl⟩
    rw [lose, ← count]
    exact sound.recount whole (Nat.pos_of_ne_zero more)

/-- A box at a new pointer leaves the others alone. -/
theorem insert_of_get? {heap : Heap} {ptr : SymbolPtr} {value bytes : List UInt8}
    (new : heap.get? ptr = none) {other : SymbolPtr} (holds : heap.get? other = some bytes) :
    (Assoc.insert heap ptr value).get? other = heap.get? other := by
  rw [Assoc.get?_insert, if_neg]
  intro same
  rw [eq_of_beq same, new] at holds
  cases holds

/-- A new box with a value that no other box holds is entered with one owner. -/
theorem Sound.enter (sound : memory.Sound computeHash owners) {value : List UInt8}
    (none_holds : ∀ ptr, memory.heap.get? ptr ≠ some value) {addr : Nat}
    (new : memory.heap.get? ⟨addr, value.length⟩ = none) :
    Sound computeHash
      ⟨memory.heap.insert ⟨addr, value.length⟩ value,
        memory.table ++ [⟨computeHash value, ⟨addr, value.length⟩, 1⟩]⟩
      (gain owners ⟨addr, value.length⟩) := by
  obtain ⟨single, backed, apart, counted, entered, owned⟩ := sound
  have different : ∀ slot ∈ memory.table, slot.ptr ≠ ⟨addr, value.length⟩ := by
    intro slot member same
    obtain ⟨bytes, stored, -⟩ := backed slot member
    rw [same, new] at stored
    cases stored
  have kept : ∀ slot ∈ memory.table,
      (memory.heap.insert ⟨addr, value.length⟩ value).get? slot.ptr =
        memory.heap.get? slot.ptr := by
    intro slot member
    obtain ⟨bytes, stored, -⟩ := backed slot member
    exact insert_of_get? new stored
  have unowned : owners ⟨addr, value.length⟩ = 0 := by
    by_contra owner
    obtain ⟨slot, member, same⟩ := entered _ (Nat.pos_of_ne_zero owner)
    exact different slot member same
  constructor
  · rw [List.map_append, List.nodup_append]
    refine ⟨single, List.nodup_singleton _, fun ptr member other last => ?_⟩
    obtain ⟨slot, inside, rfl⟩ := List.mem_map.mp member
    rw [List.map_singleton, List.mem_singleton] at last
    exact last ▸ different slot inside
  · intro slot member
    rcases List.mem_append.mp member with old | last
    · rw [kept slot old]
      exact backed slot old
    · rw [List.mem_singleton] at last
      subst last
      exact ⟨value, Assoc.get?_insert_self .., rfl⟩
  · intro a memberA b memberB
    rcases List.mem_append.mp memberA with oldA | lastA <;>
      rcases List.mem_append.mp memberB with oldB | lastB
    · rw [kept a oldA, kept b oldB]
      exact apart a oldA b oldB
    · rw [List.mem_singleton] at lastB
      subst lastB
      rw [kept a oldA, Assoc.get?_insert_self]
      exact fun equal => absurd equal (none_holds _)
    · rw [List.mem_singleton] at lastA
      subst lastA
      rw [kept b oldB, Assoc.get?_insert_self]
      exact fun equal => absurd equal.symm (none_holds _)
    · rw [List.mem_singleton] at lastA lastB
      rw [lastA, lastB]
      exact fun _ => rfl
  · intro slot member
    rcases List.mem_append.mp member with old | last
    · rw [gain, Function.update_of_ne (different slot old)]
      exact counted slot old
    · rw [List.mem_singleton] at last
      subst last
      rw [gain, Function.update_self, unowned]
      exact ⟨rfl, Nat.one_pos⟩
  · intro ptr owner
    by_cases same : ptr = ⟨addr, value.length⟩
    · exact ⟨_, List.mem_append_right _ (List.mem_singleton_self _), same.symm⟩
    · rw [gain, Function.update_of_ne same] at owner
      obtain ⟨slot, member, equal⟩ := entered ptr owner
      exact ⟨slot, List.mem_append_left _ member, equal⟩
  · intro ptr bytes holds
    rw [Assoc.get?_insert] at holds
    split at holds
    · next same =>
      cases holds
      rw [eq_of_beq same]
      exact ⟨rfl, _, List.mem_append_right _ (List.mem_singleton_self _), rfl⟩
    · obtain ⟨long, slot, member, equal⟩ := owned ptr bytes holds
      exact ⟨long, slot, List.mem_append_left _ member, equal⟩

theorem intern_spec (sound : memory.Sound computeHash owners) (value : List UInt8) {addr : Nat}
    (free : memory.heap.free addr value.length = true) :
    ∃ next ptr, memory.intern (computeHash value) value addr = .ok (next, ptr) ∧
      next.Sound computeHash (gain owners ptr) ∧ next.heap.get? ptr = some value ∧
      ∀ other bytes, memory.heap.get? other = some bytes → next.heap.get? other = some bytes := by
  have readable : ∀ slot ∈ memory.table, sameBytes memory.heap value slot.ptr =
      .ok (memory.heap.get? slot.ptr == some value) := by
    intro slot member
    obtain ⟨bytes, stored, -⟩ := sound.backed slot member
    rw [sameBytes, Heap.bytes, stored]
    rfl
  rw [intern]
  rcases fromKeyHashedNocheck_spec (computeHash value)
      (fun ptr => memory.heap.get? ptr == some value) readable with
    ⟨vacant, absent⟩ | ⟨before, slot, after, whole, found, equal, -⟩
  · -- No box holds the value, so the new one is apart from all others.
    have none_holds : ∀ ptr, memory.heap.get? ptr ≠ some value := by
      intro ptr holds
      obtain ⟨-, slot, member, rfl⟩ := sound.owned ptr value holds
      obtain ⟨bytes, stored, hashed⟩ := sound.backed slot member
      cases holds.symm.trans stored
      exact absent slot member (beq_iff_eq.mpr holds) hashed
    have new : memory.heap.get? ⟨addr, value.length⟩ = none := by
      cases holds : memory.heap.get? ⟨addr, value.length⟩ with
      | none => rfl
      | some bytes =>
        have long := (sound.owned _ bytes holds).1
        rw [Heap.free] at free
        split at free
        · next empty =>
          rw [List.length_eq_zero_iff] at empty
          subst empty
          rw [List.length_nil, eq_comm, List.length_eq_zero_iff] at long
          exact absurd (long ▸ holds) (none_holds _)
        · next filled =>
          have key : (⟨addr, value.length⟩ : SymbolPtr) ∈ memory.heap.keys :=
            Assoc.mem_keys (Assoc.mem_of_get?_lawful holds)
          have clear := (of_decide_eq_true free).2 _ key
          dsimp only at clear
          omega
    rw [vacant]
    refine ⟨_, _, rfl, sound.enter none_holds new, Assoc.get?_insert_self .., ?_⟩
    exact fun other bytes holds => (insert_of_get? new holds).trans holds
  · rw [found]
    have holds := eq_of_beq equal
    refine ⟨_, _, rfl, ?_, holds, fun _ _ same => same⟩
    have count := (sound.counted slot (by simp [whole])).1
    rw [gain, ← count]
    exact sound.recount whole (Nat.succ_pos _)

end Memory
end Pool

/-! ### The symbols and the calls -/

namespace Pool

variable {pool next : Pool}

def pointers (pool : Pool) : List SymbolPtr := pool.symbols.values.map Symbol.ptr

def owners (pool : Pool) (ptr : SymbolPtr) : Nat := pool.pointers.count ptr

/-- What the symbol of a number reads. -/
def content (pool : Pool) (symbol : Nat) : Option (List UInt8) :=
  (pool.symbols.get? symbol).bind pool.value

/-- The symbol that a call was given is alive, and its hash is that of its content. -/
def Called (computeHash : List UInt8 → UInt64) (pool : Pool) : Call → Prop
  | .intern _ value hash => hash = computeHash value
  | .convert symbol => ∃ bytes, pool.content symbol = some bytes
  | .clone symbol hash | .drop symbol hash =>
    ∃ bytes, pool.content symbol = some bytes ∧ hash = computeHash bytes

structure Inv (computeHash : List UInt8 → UInt64) (pool : Pool) : Prop where
  sound : pool.memory.Sound computeHash pool.owners
  named : pool.symbols.Distinct
  called : ∀ n call, pool.calls.get? n = some call → pool.Called computeHash call
  alone : ∀ n m call other symbol, pool.calls.get? n = some call → pool.calls.get? m = some other →
    call.consumes = some symbol → other.concerns = some symbol → n = m

theorem concerns_of_consumes {call : Call} {symbol : Nat}
    (consumes : call.consumes = some symbol) : call.concerns = some symbol := by
  cases call <;> first | exact consumes | cases consumes

theorem content_eq_some {symbol : Nat} {bytes : List UInt8} :
    pool.content symbol = some bytes ↔
      ∃ held, pool.symbols.get? symbol = some held ∧ pool.value held = some bytes :=
  Option.bind_eq_some_iff

theorem owner_of_symbol {symbol : Nat} {held : Symbol}
    (found : pool.symbols.get? symbol = some held) : 0 < pool.owners held.ptr := by
  have member := Assoc.mem_of_get?_lawful found
  exact List.count_pos_iff.mpr (List.mem_map_of_mem (List.mem_map_of_mem member))

/-- A live symbol reads something. -/
theorem Inv.value_of_symbol (inv : pool.Inv computeHash) {symbol : Nat} {held : Symbol}
    (found : pool.symbols.get? symbol = some held) : ∃ bytes, pool.value held = some bytes :=
  inv.sound.owned_value (owner_of_symbol found)

theorem Called.frame {call : Call} (called : pool.Called computeHash call)
    (same : ∀ symbol bytes, call.concerns = some symbol → pool.content symbol = some bytes →
      next.content symbol = some bytes) : next.Called computeHash call := by
  cases call with
  | intern _ _ _ => exact called
  | convert symbol =>
    obtain ⟨bytes, reads⟩ := called
    exact ⟨bytes, same symbol bytes rfl reads⟩
  | clone symbol _ | drop symbol _ =>
    obtain ⟨bytes, reads, hashed⟩ := called
    exact ⟨bytes, same symbol bytes rfl reads, hashed⟩

/-- A call may begin when no other call gets in its way. -/
theorem Inv.start (inv : pool.Inv computeHash) {n : Nat} {call : Call}
    (called : pool.Called computeHash call)
    (clear : ∀ m other symbol, m ≠ n → pool.calls.get? m = some other →
      ¬(call.consumes = some symbol ∧ other.concerns = some symbol) ∧
      ¬(other.consumes = some symbol ∧ call.concerns = some symbol)) :
    (pool.start n call).Inv computeHash := by
  have look : ∀ m other, (pool.start n call).calls.get? m = some other →
      m = n ∧ other = call ∨ m ≠ n ∧ pool.calls.get? m = some other := by
    intro m other found
    rw [Pool.start, Assoc.get?_insert] at found
    split at found
    · next same => exact .inl ⟨eq_of_beq same, (Option.some.inj found).symm⟩
    · next different => exact .inr ⟨fun same => different (beq_iff_eq.mpr same), found⟩
  refine ⟨inv.sound, inv.named, ?_, ?_⟩
  · intro m other found
    rcases look m other found with ⟨-, rfl⟩ | ⟨-, old⟩
    · exact called
    · exact inv.called m other old
  · intro m k first second symbol foundFirst foundSecond consumes concerns
    rcases look m first foundFirst with ⟨rfl, rfl⟩ | ⟨differM, oldFirst⟩ <;>
      rcases look k second foundSecond with ⟨rfl, rfl⟩ | ⟨differK, oldSecond⟩
    · rfl
    · exact absurd ⟨consumes, concerns⟩ (clear k second symbol differK oldSecond).1
    · exact absurd ⟨consumes, concerns⟩ (clear m first symbol differM oldFirst).2
    · exact inv.alone m k first second symbol oldFirst oldSecond consumes concerns

theorem Inv.finish (inv : pool.Inv computeHash) (n : Nat) :
    (pool.finish n).Inv computeHash := by
  have look : ∀ m other, (pool.finish n).calls.get? m = some other →
      pool.calls.get? m = some other := by
    intro m other found
    rw [Pool.finish, Assoc.get?_erase] at found
    split at found
    · cases found
    · exact found
  refine ⟨inv.sound, inv.named, fun m other found => inv.called m other (look m other found), ?_⟩
  intro m k first second symbol foundFirst foundSecond
  exact inv.alone m k first second symbol (look m first foundFirst) (look k second foundSecond)

/-- A change of the memory and the symbols that the calls under way do not see. -/
theorem Inv.change (inv : pool.Inv computeHash) {memory : Memory} {symbols : Assoc Nat Symbol}
    (sound : memory.Sound computeHash (owners { pool with memory, symbols }))
    (named : symbols.Distinct)
    (same : ∀ n call symbol bytes, pool.calls.get? n = some call → call.concerns = some symbol →
      pool.content symbol = some bytes →
      content { pool with memory, symbols } symbol = some bytes) :
    Inv computeHash { pool with memory, symbols } := by
  refine ⟨sound, named, ?_, inv.alone⟩
  intro n call found
  exact (inv.called n call found).frame fun symbol bytes concerns =>
    same n call symbol bytes found concerns

/-- What an enabled step leads to, if anything: a pool that keeps the invariant, and no fault. -/
def Kept (computeHash : List UInt8 → UInt64) (result : Option (Except Fault Pool)) : Prop :=
  match result with
  | none => True
  | some (.error _) => False
  | some (.ok next) => next.Inv computeHash

theorem lent_of {symbol m : Nat} {other : Call} (found : pool.calls.get? m = some other)
    (concerns : other.concerns = some symbol) : pool.lent symbol = true := by
  have member : other ∈ pool.calls.values :=
    List.mem_map_of_mem (Assoc.mem_of_get?_lawful found)
  exact List.any_eq_true.mpr ⟨other, member, decide_eq_true concerns⟩

theorem moved_of {symbol m : Nat} {other : Call} (found : pool.calls.get? m = some other)
    (consumes : other.consumes = some symbol) : pool.moved symbol = true := by
  have member : other ∈ pool.calls.values :=
    List.mem_map_of_mem (Assoc.mem_of_get?_lawful found)
  exact List.any_eq_true.mpr ⟨other, member, decide_eq_true consumes⟩

private theorem kept_intern (inv : pool.Inv computeHash) (call : Nat) (kind : SymbolKind)
    (value : List UInt8) : Kept computeHash (pool.step computeHash (.intern call kind value)) := by
  unfold step
  dsimp only
  split
  · trivial
  · apply inv.start
    · exact (rfl : computeHash value = computeHash value)
    · exact fun _ _ _ _ _ => ⟨nofun, nofun⟩

private theorem kept_clone (inv : pool.Inv computeHash) (call symbol : Nat) :
    Kept computeHash (pool.step computeHash (.clone call symbol)) := by
  unfold step
  dsimp only
  split
  · trivial
  · next held found =>
    obtain ⟨bytes, reads⟩ := inv.value_of_symbol found
    split
    · trivial
    · next clear =>
      rw [Heap.bytes, show pool.memory.heap.get? held.ptr = some bytes from reads]
      apply inv.start
      · exact ⟨bytes, content_eq_some.mpr ⟨held, found, reads⟩, rfl⟩
      · intro m other named _ inside
        refine ⟨nofun, fun ⟨consumes, concerns⟩ => clear ?_⟩
        cases concerns
        rw [moved_of inside consumes, Bool.or_true]

private theorem kept_drop (inv : pool.Inv computeHash) (call symbol : Nat) :
    Kept computeHash (pool.step computeHash (.drop call symbol)) := by
  unfold step
  dsimp only
  split
  · trivial
  · next held found =>
    obtain ⟨bytes, reads⟩ := inv.value_of_symbol found
    split
    · trivial
    · next clear =>
      rw [Heap.bytes, show pool.memory.heap.get? held.ptr = some bytes from reads]
      apply inv.start
      · exact ⟨bytes, content_eq_some.mpr ⟨held, found, reads⟩, rfl⟩
      · intro m other named _ inside
        constructor
        · rintro ⟨consumes, concerns⟩
          cases consumes
          exact clear (by rw [lent_of inside concerns, Bool.or_true])
        · rintro ⟨consumes, concerns⟩
          cases concerns
          exact clear (by rw [lent_of inside (concerns_of_consumes consumes), Bool.or_true])

private theorem kept_convert (inv : pool.Inv computeHash) (call : Nat) :
    Kept computeHash (pool.step computeHash (.convert call)) := by
  unfold step
  dsimp only
  split
  · next symbol _ =>
    split
    · trivial
    · next held found =>
      have pointers : pointers { pool with symbols := pool.symbols.insert symbol ⟨.str, held.ptr⟩ }
          = pool.pointers := Assoc.values_insert_map Symbol.ptr found rfl
      apply Inv.finish
      apply inv.change
      · rw [show owners _ = pool.owners from funext fun ptr => congrArg (List.count ptr) pointers]
        exact inv.sound
      · exact inv.named.insert _ _
      · intro n other number bytes _ _ reads
        obtain ⟨old, inside, same⟩ := content_eq_some.mp reads
        apply content_eq_some.mpr
        rw [Assoc.get?_insert]
        split
        · next here =>
          rw [eq_of_beq here, found] at inside
          cases inside
          exact ⟨_, rfl, same⟩
        · exact ⟨old, inside, same⟩
  · trivial

/-- A new symbol is one owner more of its pointer. -/
theorem owners_insert {fresh : Nat} (new : pool.symbols.get? fresh = none) (held : Symbol)
    (memory : Memory) :
    owners { pool with memory, symbols := pool.symbols.insert fresh held } =
      Memory.gain pool.owners held.ptr := by
  have absent : ∀ entry ∈ pool.symbols, (fresh == entry.1) = false := by
    intro entry member
    simpa using List.lookup_eq_none_iff.mp new entry member
  have whole := Assoc.insert_of_new held absent
  funext ptr
  simp only [owners, pointers, whole, Assoc.values, List.map_append, List.map_cons, List.map_nil,
    List.count_append, List.count_singleton, Memory.gain, Function.update_apply]
  by_cases same : held.ptr = ptr
  · simp [same]
  · simp [same, Ne.symm same]

/-- A dropped symbol is one owner less. -/
theorem owners_erase (named : pool.symbols.Distinct) {symbol : Nat} {held : Symbol}
    (found : pool.symbols.get? symbol = some held) (memory : Memory) :
    owners { pool with memory, symbols := pool.symbols.erase symbol } =
      Memory.lose pool.owners held.ptr := by
  have split := (Assoc.values_erase named found).map Symbol.ptr
  funext ptr
  have count := split.count_eq ptr
  simp only [List.map_cons, List.count_cons] at count
  simp only [owners, pointers, Memory.lose, Function.update_apply]
  by_cases same : held.ptr = ptr
  · subst same
    simp only [BEq.rfl, if_true] at count ⊢
    omega
  · simp only [beq_iff_eq, same, Ne.symm same, if_false] at count ⊢
    omega

theorem one_lt_owners (named : pool.symbols.Distinct) {symbol number : Nat} {held user : Symbol}
    (found : pool.symbols.get? symbol = some held)
    (remains : (pool.symbols.erase symbol).get? number = some user) (same : user.ptr = held.ptr) :
    1 < pool.owners held.ptr := by
  have owner : 0 < owners { pool with symbols := pool.symbols.erase symbol } user.ptr :=
    owner_of_symbol remains
  have fewer := owners_erase named found pool.memory
  rw [fewer, same, Memory.lose, Function.update_self] at owner
  omega

/-- A new symbol does not change what the others read. -/
theorem content_insert {fresh : Nat} (new : pool.symbols.get? fresh = none) (held : Symbol)
    {memory : Memory} (kept : ∀ ptr bytes, pool.memory.heap.get? ptr = some bytes →
      memory.heap.get? ptr = some bytes) {symbol : Nat} {bytes : List UInt8}
    (reads : pool.content symbol = some bytes) :
    content { pool with memory, symbols := pool.symbols.insert fresh held } symbol =
      some bytes := by
  obtain ⟨old, inside, same⟩ := content_eq_some.mp reads
  apply content_eq_some.mpr
  refine ⟨old, ?_, kept _ _ same⟩
  rw [Assoc.get?_insert, if_neg, inside]
  intro here
  rw [eq_of_beq here, new] at inside
  cases inside

private theorem kept_lock (inv : pool.Inv computeHash) (call fresh addr : Nat) :
    Kept computeHash (pool.step computeHash (.lock call fresh addr)) := by
  unfold step
  dsimp only
  split
  · trivial
  · trivial
  · next kind value hash under =>
    split
    · trivial
    · next clear =>
      simp only [Bool.or_eq_true, not_or, Option.not_isSome_iff_eq_none, Bool.not_eq_true',
        Bool.not_eq_false] at clear
      obtain ⟨new, free⟩ := clear
      have hashed : hash = computeHash value := inv.called call _ under
      obtain ⟨memory, ptr, done, sound, holds, kept⟩ :=
        Memory.intern_spec inv.sound value free
      rw [hashed, done]
      dsimp only
      -- The symbol of bytes is there, and the call has not yet returned.
      have inner : Inv computeHash
          { pool with memory, symbols := pool.symbols.insert fresh ⟨.bytes, ptr⟩ } := by
        apply inv.change
        · rw [owners_insert new]
          exact sound
        · exact inv.named.insert _ _
        · exact fun n other symbol bytes _ _ reads => content_insert new _ kept reads
      cases kind with
      | bytes => exact inner.finish call
      | str =>
        apply inner.start
        · refine ⟨value, content_eq_some.mpr ⟨_, Assoc.get?_insert_self .., holds⟩⟩
        · intro m other number _ inside
          -- No other call can be about a symbol that was not there before.
          have unconcerned : other.concerns ≠ some fresh := by
            intro concerns
            have called := inv.called m other inside
            have reads : ∃ bytes, pool.content fresh = some bytes := by
              cases other with
              | intern _ _ _ => cases concerns
              | convert _ =>
                cases concerns
                exact called
              | clone _ _ | drop _ _ =>
                cases concerns
                obtain ⟨bytes, reads, -⟩ := called
                exact ⟨bytes, reads⟩
            obtain ⟨bytes, reads⟩ := reads
            rw [content, new] at reads
            cases reads
          constructor
          · rintro ⟨consumes, concerns⟩
            cases consumes
            exact unconcerned concerns
          · rintro ⟨consumes, concerns⟩
            cases concerns
            exact unconcerned (concerns_of_consumes consumes)
  · next symbol hash under =>
    split
    · trivial
    · next held found =>
      split
      · trivial
      · next taken =>
        have new := Option.not_isSome_iff_eq_none.mp taken
        obtain ⟨bytes, reads, hashed⟩ := inv.called call _ under
        obtain ⟨old, inside, holds⟩ := content_eq_some.mp reads
        cases found.symm.trans inside
        obtain ⟨memory, done, same, sound⟩ :=
          Memory.clone_spec inv.sound (owner_of_symbol found) holds
        rw [hashed, done]
        dsimp only
        apply Inv.finish
        apply inv.change
        · rw [owners_insert new]
          exact sound
        · exact inv.named.insert _ _
        · intro n other number bytes _ _ reads
          exact content_insert new _ (fun ptr bytes stored => same ▸ stored) reads
  · next symbol hash under =>
    split
    · trivial
    · next held found =>
      obtain ⟨bytes, reads, hashed⟩ := inv.called call _ under
      obtain ⟨old, inside, holds⟩ := content_eq_some.mp reads
      cases found.symm.trans inside
      obtain ⟨memory, done, sound, shared, others⟩ :=
        Memory.drop_spec inv.sound (owner_of_symbol found) holds
      rw [hashed, done]
      dsimp only
      -- The call is over before the symbol goes: no other call is about it.
      apply (inv.finish call).change
      · change memory.Sound computeHash
          (owners { pool with memory, symbols := pool.symbols.erase symbol })
        rw [owners_erase inv.named found]
        exact sound
      · exact inv.named.erase _
      · intro n other number bytes running concerns reads
        rw [Pool.finish, Assoc.get?_erase] at running
        split at running
        · cases running
        · next different =>
          have apart : number ≠ symbol := by
            rintro rfl
            have same := inv.alone call n _ other number under running rfl concerns
            exact different (beq_iff_eq.mpr same)
          obtain ⟨user, stays, uses⟩ := content_eq_some.mp reads
          apply content_eq_some.mpr
          have remains : (Assoc.erase pool.symbols symbol).get? number = some user := by
            rw [Assoc.get?_erase, if_neg fun same => apart (eq_of_beq same).symm]
            exact stays
          refine ⟨user, remains, ?_⟩
          by_cases same : user.ptr = held.ptr
          · have more := one_lt_owners inv.named found remains same
            rw [value, shared more]
            exact uses
          · rw [value, others user.ptr same]
            exact uses

theorem step_kept (inv : pool.Inv computeHash) (label : Label) :
    Kept computeHash (pool.step computeHash label) := by
  cases label with
  | intern call kind value => exact kept_intern inv call kind value
  | clone call symbol => exact kept_clone inv call symbol
  | drop call symbol => exact kept_drop inv call symbol
  | lock call fresh addr => exact kept_lock inv call fresh addr
  | convert call => exact kept_convert inv call

theorem advance_inv (inv : pool.Inv computeHash) {label : Label}
    (move : pool.advance computeHash label = some next) : next.Inv computeHash := by
  have kept := step_kept inv label
  unfold advance at move
  split at move
  · next result =>
    cases move
    rwa [result] at kept
  · cases move

theorem inv_empty : Inv computeHash {} := by
  refine ⟨⟨List.nodup_nil, nofun, nofun, nofun, fun ptr owner => ?_, nofun⟩, .nil, nofun, nofun⟩
  exact absurd owner (Nat.lt_irrefl 0)

theorem run_inv {labels : List Label} (run : Run (advance computeHash) {} labels pool) :
    pool.Inv computeHash :=
  run.invariant (fun _ _ _ inv move => advance_inv inv move) inv_empty

/-! ### What the counts are -/

/-- Symbols share a pointer exactly if they have the same value. -/
theorem Inv.ptr_eq_iff (inv : pool.Inv computeHash) {a b : Symbol}
    (memberA : a ∈ pool.symbols.values) (memberB : b ∈ pool.symbols.values) :
    a.ptr = b.ptr ↔ pool.value a = pool.value b := by
  constructor
  · intro same
    rw [value, value, same]
  · intro same
    have entered : ∀ held ∈ pool.symbols.values, ∃ slot ∈ pool.memory.table,
        slot.ptr = held.ptr := fun held member =>
      inv.sound.entered held.ptr (List.count_pos_iff.mpr (List.mem_map_of_mem member))
    obtain ⟨slotA, insideA, ptrA⟩ := entered a memberA
    obtain ⟨slotB, insideB, ptrB⟩ := entered b memberB
    rw [← ptrA, ← ptrB]
    apply inv.sound.apart slotA insideA slotB insideB
    rw [ptrA, ptrB]
    exact same

theorem Inv.live_of_slot (inv : pool.Inv computeHash) {slot : Slot}
    (member : slot ∈ pool.memory.table) {value : List UInt8}
    (holds : pool.memory.heap.get? slot.ptr = some value) : pool.live value = slot.count := by
  rw [(inv.sound.counted slot member).1, live, owners, pointers, List.count, List.countP_map]
  apply List.countP_congr
  intro held inside
  have owner : 0 < pool.owners held.ptr := List.count_pos_iff.mpr (List.mem_map_of_mem inside)
  obtain ⟨other, entered, ptr⟩ := inv.sound.entered held.ptr owner
  simp only [decide_eq_true_eq, Function.comp_apply, beq_iff_eq]
  constructor
  · intro reads
    rw [← ptr]
    apply inv.sound.apart other entered slot member
    rw [ptr, holds]
    exact reads
  · intro same
    rw [Pool.value, same, holds]

theorem Inv.count_eq (inv : pool.Inv computeHash) (value : List UInt8) :
    pool.count value = if pool.live value = 0 then none else some (pool.live value) := by
  rw [count]
  cases found : pool.memory.table.find? fun slot => pool.memory.heap.get? slot.ptr = some value with
  | none =>
    have unread : pool.live value = 0 := by
      apply List.countP_eq_zero.mpr
      intro held inside reads
      have owner : 0 < pool.owners held.ptr := List.count_pos_iff.mpr (List.mem_map_of_mem inside)
      obtain ⟨slot, entered, ptr⟩ := inv.sound.entered held.ptr owner
      apply List.find?_eq_none.mp found slot entered
      rw [ptr]
      exact reads
    rw [if_pos unread, Option.map_none]
  | some slot =>
    have member := List.mem_of_find?_eq_some found
    have holds := List.find?_some found
    rw [decide_eq_true_eq] at holds
    have positive := (inv.sound.counted slot member).2
    rw [inv.live_of_slot member holds, if_neg (Nat.ne_of_gt positive), Option.map_some]

/-- Whatever the order of the steps of all calls, the table counts the live symbols of each value,
symbols compare and hash by pointer as they do by value, and nothing can go wrong next. -/
theorem counts_of_run {labels : List Label} (run : Run (advance computeHash) {} labels pool) :
    (∀ value, pool.count value = if pool.live value = 0 then none else some (pool.live value)) ∧
    (∀ a ∈ pool.symbols.values, ∀ b ∈ pool.symbols.values,
      (pool.value a).isSome = true ∧ (a.eq b = true ↔ pool.value a = pool.value b) ∧
        (a.hashed = b.hashed ↔ pool.value a = pool.value b)) ∧
    ∀ label fault, pool.step computeHash label ≠ some (.error fault) := by
  have inv := run_inv run
  refine ⟨inv.count_eq, fun a memberA b memberB => ⟨?_, ?_, ?_⟩, fun label fault wrong => ?_⟩
  · have owner : 0 < pool.owners a.ptr := List.count_pos_iff.mpr (List.mem_map_of_mem memberA)
    obtain ⟨bytes, reads⟩ := inv.sound.owned_value owner
    exact Option.isSome_of_eq_some reads
  · rw [Symbol.eq, beq_iff_eq]
    exact inv.ptr_eq_iff memberA memberB
  · rw [← inv.ptr_eq_iff memberA memberB, Symbol.hashed, Symbol.hashed, Prod.mk.injEq,
      SymbolPtr.ext_iff]
  · have kept := step_kept inv label
    rwa [wrong] at kept

/-- Two threads intern the same name as two types, one symbol is cloned while the other call is
under way, and the first is dropped. -/
def trace : List Label :=
  [.intern 0 .bytes [97], .intern 1 .str [97], .lock 0 0 8, .clone 0 0, .lock 1 1 9, .lock 0 2 9,
    .convert 1, .drop 0 0, .default 1 .bytes, .lock 0 0 9, .lock 1 3 1]

private theorem trace_enabled :
    (exec (advance fun bytes => bytes.length.toUInt64) {} trace).isSome = true := by
  decide

theorem counts_of_run_trace :
    ∃ pool, Run (advance fun bytes => bytes.length.toUInt64) {} trace pool ∧
      pool.count [97] = some 2 ∧ pool.count [] = some 1 ∧ pool.count [98] = none := by
  have counts := (counts_of_run (run_exec trace_enabled)).1
  refine ⟨_, run_exec trace_enabled, ?_, ?_, ?_⟩
  · rw [counts]
    decide
  · rw [counts]
    decide
  · rw [counts]
    decide

end Pool
end Yazi.Shared
