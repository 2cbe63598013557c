import Mathlib.Algebra.Order.BigOperators.Group.List
import Mathlib.Algebra.Order.Group.Nat
import Yazi.Base.Worklist
import Yazi.Fs.File
import Yazi.Shared.Join

/-!
Going through a directory to copy, move, link, download or upload what is in it.

Directories wait in a queue. Each is read and made at the destination before its entries are
handled; those that are directories join the queue.
-/
namespace Yazi.Scheduler.Traverse
open Yazi.Base Yazi.Shared Yazi.Fs

/-! ### The program -/

/-- What a traversal knows of its task: `FileInCopy` and its like. There is no destination for
downloads and uploads. -/
structure FileIn where
  id : Nat
  src : Url
  dest : Option Url
  force : Bool
  follow : Bool
  stat : Option Stat
  deriving DecidableEq

def FileIn.spawn (task : FileIn) (src : Url) (dest : Option Url) (stat : Stat) : FileIn :=
  { task with src, dest, stat := some stat }

/-- An entry with what asking for its metadata answers. -/
structure DirEntry where
  url : Url
  metadata : Except String Stat

/-- The entries that a reader gives before it ends or fails. -/
structure Listing where
  entries : List DirEntry
  broken : Option String

/-- The answers of the engines. -/
structure Source where
  symlinkMetadata : Url → Except String Stat
  metadata : Url → Option Stat
  readDir : Url → Except String Listing

/-- The answers of `on_dir` and `on_file`, by the file or directory they are called for. -/
structure Handlers where
  onDir : Url → Except String Unit
  onFile : Url → Except String Unit

/-- What is passed to `on_error`, for urls of this type at the destination. -/
inductive Fault (U : Type) where
  /-- "Cannot read directory {src}" -/
  | read (src : Url) (e : String)
  /-- The reader of a directory fails before its end. -/
  | next (src : Url) (e : String)
  /-- "Cannot process directory {dest}" -/
  | dir (dest : U) (e : String)
  /-- "Cannot get metadata for {from}" -/
  | metadata (src : Url) (e : String)
  /-- "Cannot process file" -/
  | file (e : String)
  deriving DecidableEq

/-- A call of `on_dir`, `on_file` or `on_error`. -/
inductive Event where
  | dir (dest : Url)
  | file (task : FileIn) (stat : Stat)
  | error (fault : Fault Url)

/-- `skip_url` past the authority and `n` components. -/
def skipUrl (url : Url) (n : Nat) : Bytes := Path.skip n url.loc.inner

section traverse
variable (source : Source) (handlers : Handlers) (task : FileIn)

/-- `File::stat`. -/
def Source.stat (url : Url) (follow : Bool) (stat : Except String Stat) : Except String Stat :=
  stat.map fun stat =>
    if follow then stat.follow (if stat.isLink then source.metadata url else none) else stat

/-- `Traverse::init`. -/
def Source.init : Except String Stat :=
  match task.stat with
  | some stat => .ok stat
  | none => source.stat task.src task.follow (source.symlinkMetadata task.src)

/-- Whether the traversal goes into it: links are followed or not. -/
def descends (follow : Bool) (stat : Stat) : Bool :=
  stat.isDir ∧ ((stat.isLink ∧ follow) ∨ ¬stat.isIndirect)

/-- Where a directory goes: `none` where joining panics. -/
def destination (src : Url) : Option Url :=
  match task.dest with
  | none => some src
  | some root => root.join (skipUrl src task.src.components.length)

/-- Where a file of a directory that goes to `dest` goes. -/
def fileDest (dest : Url) (src : Url) : Option (Option Url) :=
  match task.dest with
  | none => some none
  | some _ => (src.name.bind dest.join).map some

/-- An entry of a directory that goes to `dest`, with the directories to go into: `none` where
the entry has no name, or joining panics. -/
def visitEntry (dest : Url) (dent : DirEntry) : Option (List Event × List Url) :=
  match source.stat dent.url task.follow dent.metadata with
  | .error e => some ([.error (.metadata dent.url e)], [])
  | .ok stat =>
    if descends task.follow stat then some ([], [dent.url])
    else do
      let target ← fileDest task dest dent.url
      let call := Event.file (task.spawn dent.url target stat) stat
      match handlers.onFile dent.url with
      | .ok _ => some ([call], [])
      | .error e => some ([call, .error (.file e)], [])

/-- The entries in turn. An error of the reader ends them as their end does. -/
def visitEntries (dest : Url) : List DirEntry → Option (List Event × List Url)
  | [] => some ([], [])
  | dent :: rest => do
    let (events, dirs) ← visitEntry source handlers task dest dent
    let (events', dirs') ← visitEntries dest rest
    some (events ++ events', dirs ++ dirs')

/-- One directory from the queue. -/
def visit (src : Url) : Option (List Event × List Url) :=
  match source.readDir src with
  | .error e => some ([.error (.read src e)], [])
  | .ok listing => do
    let dest ← destination task src
    match handlers.onDir src with
    | .error e => some ([.dir dest, .error (.dir dest e)], [])
    | .ok _ =>
      let (events, dirs) ← visitEntries source handlers task dest listing.entries
      some (.dir dest :: events, dirs)

/-- `traverse`, with what it returns and the calls it makes: `none` where it panics, or has not
ended after so many directories. -/
def traverse (fuel : Nat) : Option (Except String Unit × List Event) :=
  match source.init task with
  | .error e => some (.error e, [])
  | .ok stat =>
    let task := { task with stat := some stat }
    if descends task.follow stat then
      (Worklist.drain (visit source handlers task) fuel [task.src] []).map (.ok (), ·)
    else some (handlers.onFile task.src, [.file task stat])

end traverse

/-! ### What it is for -/

/-- A url at the destination, up to its ports. -/
abbrev Shape := UrlOf (List Path.Component) UInt64

def Fault.map {U V : Type} (f : U → V) : Fault U → Fault V
  | .read src e => .read src e
  | .next src e => .next src e
  | .dir dest e => .dir (f dest) e
  | .metadata src e => .metadata src e
  | .file e => .file e

/-- A call, up to what the handlers are free to see of the ports. -/
inductive Call where
  | dir (dest : Shape)
  | file (src : Url) (dest : Option Shape) (stat : Stat)
  | error (fault : Fault Shape)

def Event.call : Event → Call
  | .dir dest => .dir dest.shape
  | .file task stat => .file task.src (task.dest.map Url.shape) stat
  | .error fault => .error (fault.map Url.shape)

section spec
variable (source : Source) (handlers : Handlers) (task : FileIn)

/-- The destination joined with the path of the source relative to where the traversal starts. -/
def target (src : Url) : Shape :=
  match task.dest with
  | none => src.shape
  | some root => root.shape.extend (src.components.drop task.src.components.length)

/-- The calls that an entry is due. -/
def dueEntry (dent : DirEntry) : List Call :=
  match source.stat dent.url task.follow dent.metadata with
  | .error e => [.error (.metadata dent.url e)]
  | .ok stat =>
    if descends task.follow stat then []
    else
      .file dent.url (task.dest.map fun _ => target task dent.url) stat ::
        (match handlers.onFile dent.url with
          | .ok _ => []
          | .error e => [.error (.file e)])

/-- The calls that a directory is due: its own, then those of its entries that are no directories,
and a report of every failure. -/
def due (src : Url) : List Call :=
  match source.readDir src with
  | .error e => [.error (.read src e)]
  | .ok listing =>
    .dir (target task src) ::
      (match handlers.onDir src with
        | .error e => [.error (.dir (target task src) e)]
        | .ok _ =>
          listing.entries.flatMap (dueEntry source handlers task) ++
            (listing.broken.map fun e => Call.error (.next src e)).toList)

/-- The directories right below one: none where it fails. -/
def subdirs (src : Url) : List Url :=
  match source.readDir src, handlers.onDir src with
  | .ok listing, .ok _ =>
    listing.entries.filterMap fun dent =>
      match source.stat dent.url task.follow dent.metadata with
      | .ok stat => if descends task.follow stat then some dent.url else none
      | .error _ => none
  | _, _ => []

/-- The directories that are found below the start. -/
abbrev Found (src : Url) : Prop := Worklist.Reach (subdirs source handlers task) task.src src

/-- The whole tree is covered: every directory found has its turn once, none before those above
it, and in its turn the calls that it is due are made. A file has its call only. -/
def Covers (outcome : Except String Unit × List Event) : Prop :=
  match source.init task with
  | .error e => outcome = (.error e, [])
  | .ok stat =>
    let task := { task with stat := some stat }
    if descends task.follow stat then
      outcome.1 = .ok () ∧ ∃ order,
        Worklist.Enumerates (subdirs source handlers task) Url.components task.src order ∧
          outcome.2.map Event.call = order.flatMap (due source handlers task)
    else outcome = (handlers.onFile task.src, [.file task stat])

/-- An entry lies right below its directory, and no two have the same name. -/
structure Proper : Prop where
  below : ∀ src listing, Found source handlers task src → source.readDir src = .ok listing →
    ∀ dent ∈ listing.entries, ∃ name, dent.url.components = src.components ++ [.normal name]
  distinct : ∀ src listing, Found source handlers task src → source.readDir src = .ok listing →
    (listing.entries.map (·.url.components)).Nodup
  ordered : ∀ root, task.dest = some root → root.Ordered

/-- No reader fails before its end. -/
def Unbroken : Prop :=
  ∀ src listing, Found source handlers task src → source.readDir src = .ok listing →
    handlers.onDir src = .ok () → listing.broken = none

end spec

/-! ### One directory -/

section visit
variable {source : Source} {handlers : Handlers} {task : FileIn}

private theorem mem_subdirs {src c : Url} (found : c ∈ subdirs source handlers task src) :
    ∃ listing dent, source.readDir src = .ok listing ∧ dent ∈ listing.entries ∧ dent.url = c := by
  simp only [subdirs] at found
  split at found
  · next listing _ read _ =>
    obtain ⟨dent, member, shown⟩ := List.mem_filterMap.mp found
    refine ⟨listing, dent, read, member, ?_⟩
    split at shown
    · split at shown <;> cases shown
      rfl
    · cases shown
  · cases found

private theorem components_subdirs (proper : Proper source handlers task) {src c : Url}
    (reach : Found source handlers task src) (found : c ∈ subdirs source handlers task src) :
    ∃ name, c.components = src.components ++ [.normal name] := by
  obtain ⟨listing, dent, read, member, rfl⟩ := mem_subdirs found
  exact proper.below src listing reach read dent member

/-- Whatever is found lies below the start, by names. -/
private theorem components_found (proper : Proper source handlers task) {src : Url}
    (reach : Found source handlers task src) :
    ∃ names, src.components = task.src.components ++ names ∧ Path.Plain names := by
  induction reach with
  | root => exact ⟨[], by simp, nofun⟩
  | step reach found ih =>
    obtain ⟨names, path, plain⟩ := ih
    obtain ⟨name, last⟩ := components_subdirs proper reach found
    refine ⟨names ++ [.normal name], by rw [last, path, List.append_assoc], ?_⟩
    intro c member
    rcases List.mem_append.mp member with early | here
    · exact plain c early
    · obtain rfl := List.mem_singleton.mp here
      exact ⟨name, rfl⟩

private theorem subdirs_sublist {src : Url} {listing : Listing}
    (read : source.readDir src = .ok listing) :
    List.Sublist (subdirs source handlers task src) (listing.entries.map (·.url)) := by
  have each : ∀ entries : List DirEntry, List.Sublist
      (entries.filterMap fun dent =>
        match source.stat dent.url task.follow dent.metadata with
        | .ok stat => if descends task.follow stat then some dent.url else none
        | .error _ => none)
      (entries.map (·.url)) := by
    intro entries
    induction entries with
    | nil => exact .slnil
    | cons dent entries ih =>
      rw [List.filterMap_cons, List.map_cons]
      split
      · exact ih.cons _
      · next url shown =>
        have same : dent.url = url := by
          split at shown
          · split at shown <;> cases shown
            rfl
          · cases shown
        rw [same]
        exact ih.cons_cons _
  simp only [subdirs, read]
  split
  · next listing' _ same _ =>
    cases same
    exact each _
  · exact List.nil_sublist _

private theorem nodup_subdirs (proper : Proper source handlers task) {src : Url}
    (reach : Found source handlers task src) :
    ((subdirs source handlers task src).map Url.components).Nodup := by
  cases read : source.readDir src with
  | error e =>
    have none : subdirs source handlers task src = [] := by simp only [subdirs, read]
    rw [none]
    exact List.nodup_nil
  | ok listing =>
    have distinct := proper.distinct src listing reach read
    refine distinct.sublist ?_
    rw [← Function.comp_def, ← List.map_map]
    exact (subdirs_sublist read).map _

/-- Paths tell the directories apart. -/
private theorem found_inj (proper : Proper source handlers task) {a b : Url}
    (left : Found source handlers task a) (right : Found source handlers task b)
    (same : a.components = b.components) : a = b := by
  induction left generalizing b with
  | root =>
    cases right with
    | root => rfl
    | step reach found =>
      obtain ⟨names, path, -⟩ := components_found proper reach
      obtain ⟨name, last⟩ := components_subdirs proper reach found
      have length := congrArg List.length same
      rw [last, path, List.length_append, List.length_append, List.length_singleton] at length
      omega
  | step reach found ih =>
    obtain ⟨name, last⟩ := components_subdirs proper reach found
    cases right with
    | root =>
      obtain ⟨names, path, -⟩ := components_found proper reach
      have length := congrArg List.length same
      rw [last, path, List.length_append, List.length_append, List.length_singleton] at length
      omega
    | step reach' found' =>
      obtain ⟨name', last'⟩ := components_subdirs proper reach' found'
      have paths := same
      rw [last, last'] at paths
      obtain rfl := ih reach' (List.append_inj_left' paths rfl)
      exact List.inj_on_of_nodup_map (nodup_subdirs proper reach) found found' same

theorem tree_of_proper (proper : Proper source handlers task) :
    Worklist.Tree (subdirs source handlers task) Url.components task.src where
  distinct _ reach := nodup_subdirs proper reach
  parents a b c d left right found found' same := by
    obtain ⟨name, path⟩ := components_subdirs proper left found
    obtain ⟨name', path'⟩ := components_subdirs proper right found'
    rw [path, path'] at same
    exact found_inj proper left right (List.append_inj_left' same rfl)
  top a c reach found := by
    obtain ⟨names, path, -⟩ := components_found proper reach
    obtain ⟨name, last⟩ := components_subdirs proper reach found
    intro same
    have length := congrArg List.length same
    rw [last, path, List.length_append, List.length_append, List.length_singleton] at length
    omega

/-- The calls that are made: all that are due but for the failures of readers. -/
private def made (source : Source) (handlers : Handlers) (task : FileIn) (src : Url) : List Call :=
  match source.readDir src with
  | .error e => [.error (.read src e)]
  | .ok listing =>
    .dir (target task src) ::
      (match handlers.onDir src with
        | .error e => [.error (.dir (target task src) e)]
        | .ok _ => listing.entries.flatMap (dueEntry source handlers task))

private theorem destination_spec (proper : Proper source handlers task) {src : Url}
    (reach : Found source handlers task src) :
    ∃ dest, destination task src = some dest ∧ dest.shape = target task src ∧
      (task.dest.isSome → dest.Ordered) := by
  obtain ⟨names, path, plain⟩ := components_found proper reach
  simp only [destination, target]
  cases root : task.dest with
  | none => exact ⟨src, rfl, rfl, nofun⟩
  | some root' =>
    have rest : Path.components (skipUrl src task.src.components.length) = names := by
      rw [skipUrl, Path.components_skip]
      change src.components.drop _ = names
      rw [path, List.drop_left]
    have below : src.components.drop task.src.components.length = names := by
      rw [path, List.drop_left]
    obtain ⟨dest, joined, ordered, shape⟩ :=
      Url.join_spec (proper.ordered root' root) (by rwa [rest])
    exact ⟨dest, joined, by rw [shape, rest, below], fun _ => ordered⟩

private theorem fileDest_spec (proper : Proper source handlers task) {src : Url}
    (reach : Found source handlers task src) {listing : Listing}
    (read : source.readDir src = .ok listing) {dent : DirEntry} (member : dent ∈ listing.entries)
    {dest : Url} (shape : dest.shape = target task src) (ordered : task.dest.isSome → dest.Ordered) :
    ∃ to', fileDest task dest dent.url = some to' ∧
      to'.map Url.shape = task.dest.map fun _ => target task dent.url := by
  obtain ⟨names, path, -⟩ := components_found proper reach
  obtain ⟨name, last⟩ := proper.below src listing reach read dent member
  simp only [fileDest, target] at shape ⊢
  cases root : task.dest with
  | none => exact ⟨none, rfl, rfl⟩
  | some root' =>
    rw [root] at shape ordered
    obtain ⟨named, single⟩ := Path.name_of_components last
    have named' : dent.url.name = some name := named
    have plain : Path.Plain (Path.components name) := by
      rw [single]
      intro c member
      obtain rfl := List.mem_singleton.mp member
      exact ⟨name, rfl⟩
    obtain ⟨to', joined, -, shape'⟩ := Url.join_spec (ordered rfl) plain
    refine ⟨some to', by rw [named', Option.bind_some, joined]; rfl, ?_⟩
    have whole : dent.url.components.drop task.src.components.length =
        src.components.drop task.src.components.length ++ [.normal name] := by
      rw [last, path, List.append_assoc, List.drop_left, List.drop_left]
    simp only [Option.map_some, shape', shape, single, whole, UrlOf.extend_append]

private theorem visitEntry_spec (proper : Proper source handlers task) {src : Url}
    (reach : Found source handlers task src) {listing : Listing}
    (read : source.readDir src = .ok listing) {dent : DirEntry} (member : dent ∈ listing.entries)
    {dest : Url} (shape : dest.shape = target task src) (ordered : task.dest.isSome → dest.Ordered) :
    ∃ events, visitEntry source handlers task dest dent =
        some (events, match source.stat dent.url task.follow dent.metadata with
          | .ok stat => if descends task.follow stat then [dent.url] else []
          | .error _ => []) ∧
      events.map Event.call = dueEntry source handlers task dent := by
  simp only [visitEntry, dueEntry]
  cases known : source.stat dent.url task.follow dent.metadata with
  | error e => exact ⟨_, rfl, rfl⟩
  | ok stat =>
    simp only
    split
    · exact ⟨_, rfl, rfl⟩
    · obtain ⟨to', found, same⟩ := fileDest_spec proper reach read member shape ordered
      rw [found, Option.bind_eq_bind, Option.bind_some, ← same]
      cases handlers.onFile dent.url with
      | ok _ => exact ⟨_, rfl, rfl⟩
      | error e => exact ⟨_, rfl, rfl⟩

private theorem visit_spec (proper : Proper source handlers task) {src : Url}
    (reach : Found source handlers task src) :
    ∃ events, visit source handlers task src = some (events, subdirs source handlers task src) ∧
      events.map Event.call = made source handlers task src := by
  simp only [visit, made, subdirs]
  cases read : source.readDir src with
  | error e => exact ⟨_, rfl, rfl⟩
  | ok listing =>
    obtain ⟨dest, found, shape, ordered⟩ := destination_spec proper reach
    simp only [found, Option.bind_eq_bind, Option.bind_some]
    cases handlers.onDir src with
    | error e => exact ⟨_, rfl, by simp [Event.call, Fault.map, shape]⟩
    | ok _ =>
      have entries : ∀ dents, dents ⊆ listing.entries →
          ∃ events, visitEntries source handlers task dest dents =
              some (events, dents.filterMap fun dent =>
                match source.stat dent.url task.follow dent.metadata with
                | .ok stat => if descends task.follow stat then some dent.url else none
                | .error _ => none) ∧
            events.map Event.call = dents.flatMap (dueEntry source handlers task) := by
        intro dents
        induction dents with
        | nil => exact fun _ => ⟨[], rfl, rfl⟩
        | cons dent dents ih =>
          intro members
          obtain ⟨member, others⟩ := List.cons_subset.mp members
          obtain ⟨events, first, calls⟩ := visitEntry_spec proper reach read member shape ordered
          obtain ⟨events', second, calls'⟩ := ih others
          refine ⟨events ++ events', ?_, by rw [List.map_append, calls, calls', List.flatMap_cons]⟩
          rw [visitEntries, first, second]
          simp only [Option.bind_eq_bind, Option.bind_some, List.filterMap_cons]
          cases source.stat dent.url task.follow dent.metadata with
          | error e => rfl
          | ok stat =>
            simp only
            split <;> rfl
      obtain ⟨events, visited, calls⟩ := entries listing.entries (List.Subset.refl _)
      rw [visited]
      exact ⟨_, rfl, by simp [Event.call, shape, calls]⟩

end visit

/-! ### Result -/

private theorem due_eq (source : Source) (handlers : Handlers) (task : FileIn) (src : Url) :
    ∃ lost, due source handlers task src = made source handlers task src ++ lost ∧
      (lost = [] ↔ ∀ listing, source.readDir src = .ok listing → handlers.onDir src = .ok () →
        listing.broken = none) := by
  simp only [due, made]
  cases source.readDir src with
  | error e => exact ⟨[], by simp, iff_of_true rfl nofun⟩
  | ok listing =>
    cases handlers.onDir src with
    | error e => exact ⟨[], by simp, iff_of_true rfl nofun⟩
    | ok _ =>
      refine ⟨_, by rw [List.cons_append], ?_⟩
      cases broken : listing.broken <;> simp [broken]

/-- Every directory that is found has its turn, in which its calls are made. -/
private theorem drain_made (proper : Proper source handlers task) {dirs : List Url}
    (finite : ∀ src, Found source handlers task src → src ∈ dirs) {fuel : Nat}
    (enough : dirs.length ≤ fuel) :
    ∃ order events, Worklist.Enumerates (subdirs source handlers task) Url.components task.src order ∧
      Worklist.drain (visit source handlers task) fuel [task.src] [] = some events ∧
      events.map Event.call = order.flatMap (made source handlers task) := by
  have visits : ∀ src, Found source handlers task src → visit source handlers task src =
      some (((visit source handlers task src).map (·.1)).getD [], subdirs source handlers task src) := by
    intro src reach
    obtain ⟨events, visited, -⟩ := visit_spec proper reach
    rw [visited]
    rfl
  obtain ⟨order, enumerates, drained⟩ :=
    Worklist.drain_tree visits (tree_of_proper proper) finite enough
  refine ⟨order, _, enumerates, drained, ?_⟩
  rw [List.map_flatMap]
  refine List.flatMap_congr fun src member => ?_
  obtain ⟨events, visited, same⟩ := visit_spec proper ((enumerates.complete src).mp member)
  rw [visited]
  exact same

/-- The calls that are made are those that are due just if no reader fails: a failure loses one. -/
private theorem made_eq_due_iff {order : List Url}
    (enumerates : Worklist.Enumerates (subdirs source handlers task) Url.components task.src order) :
    (∃ order', Worklist.Enumerates (subdirs source handlers task) Url.components task.src order' ∧
      order.flatMap (made source handlers task) = order'.flatMap (due source handlers task)) ↔
        Unbroken source handlers task := by
  constructor
  · rintro ⟨order', enumerates', same⟩ src listing reach read opened
    have perm : order'.Perm order :=
      (List.perm_ext_iff_of_nodup enumerates'.nodup.of_map enumerates.nodup.of_map).mpr
        fun a => (enumerates'.complete a).trans (enumerates.complete a).symm
    have length := congrArg List.length same
    rw [List.length_flatMap, List.length_flatMap, (perm.map _).sum_eq] at length
    -- As many calls are made as are due, so none is lost.
    by_contra broken
    have less : ∀ a ∈ order, (made source handlers task a).length ≤
        (due source handlers task a).length := by
      intro a _
      obtain ⟨lost, whole, -⟩ := due_eq source handlers task a
      rw [whole, List.length_append]
      exact Nat.le_add_right _ _
    refine Nat.ne_of_lt (List.sum_lt_sum _ _ less ⟨src, (enumerates.complete src).mpr reach, ?_⟩)
      length
    obtain ⟨lost, whole, none⟩ := due_eq source handlers task src
    have some : lost ≠ [] := fun nothing => broken (none.mp nothing listing read opened)
    rw [whole, List.length_append]
    have positive := List.length_pos_iff.mpr some
    omega
  · intro unbroken
    refine ⟨order, enumerates, List.flatMap_congr fun src member => ?_⟩
    obtain ⟨lost, whole, none⟩ := due_eq source handlers task src
    have reach := (enumerates.complete src).mp member
    have nothing := none.mpr fun listing => unbroken src listing reach
    rw [whole, nothing, List.append_nil]

/-- A traversal that starts at a directory. -/
private theorem traverse_dir (proper : Proper source handlers task) {dirs : List Url}
    (finite : ∀ src, Found source handlers task src → src ∈ dirs) {fuel : Nat}
    (enough : dirs.length ≤ fuel) {stat : Stat} (init : source.init task = .ok stat)
    (goes : descends task.follow stat = true) :
    ∃ events, traverse source handlers task fuel = some (.ok (), events) ∧
      (Covers source handlers task (.ok (), events) ↔ Unbroken source handlers task) := by
  -- The metadata of the start make no difference to what is found.
  let started : FileIn := { task with stat := some stat }
  have ready : Proper source handlers started := ⟨proper.below, proper.distinct, proper.ordered⟩
  obtain ⟨order, events, enumerates, drained, calls⟩ := drain_made ready finite enough
  refine ⟨events, ?_, ?_⟩
  · rw [traverse, init]
    simp only [if_pos goes]
    rw [drained]
    rfl
  · rw [Covers, init]
    simp only [if_pos goes, true_and, calls]
    exact made_eq_due_iff enumerates

/-- A traversal ends, and covers the tree exactly if no reader fails before its end: such a
failure is not reported, and loses the rest of the directory. -/
theorem traverse_covers_iff (source : Source) (handlers : Handlers) (task : FileIn)
    (proper : Proper source handlers task) (dirs : List Url)
    (finite : ∀ src, Found source handlers task src → src ∈ dirs) (fuel : Nat)
    (enough : dirs.length ≤ fuel) :
    ∃ outcome, traverse source handlers task fuel = some outcome ∧
      (Covers source handlers task outcome ↔
        ∀ stat, source.init task = .ok stat → descends task.follow stat →
          Unbroken source handlers task) := by
  cases init : source.init task with
  | error e =>
    refine ⟨(.error e, []), by rw [traverse, init], iff_of_true ?_ ?_⟩
    · rw [Covers, init]
    · intro stat same
      cases same
  | ok stat =>
    by_cases goes : descends task.follow stat = true
    · obtain ⟨events, ends, iff⟩ := traverse_dir proper finite enough init goes
      refine ⟨_, ends, iff.trans ⟨fun unbroken _ _ _ => unbroken, fun all => all stat rfl goes⟩⟩
    · refine ⟨(handlers.onFile task.src, [.file { task with stat := some stat } stat]), ?_,
        iff_of_true ?_ ?_⟩
      · rw [traverse, init]
        simp only [if_neg goes]
      · rw [Covers, init]
        simp only [if_neg goes]
      · intro stat' same goes'
        cases same
        exact absurd goes' goes

def sampleStat (type : StatType) : Stat where
  kind := 0
  mode := type.mode
  len := 0
  btime := none
  ctime := none
  mtime := none

/-- The directory `/a` with a file and an empty directory, its reader failing behind them or not. -/
def sampleSource (broken : Option String) : Source where
  symlinkMetadata _ := .error "not found"
  metadata _ := none
  readDir src :=
    if src = Url.regular (text "/a") then
      .ok ⟨[⟨Url.regular (text "/a/f"), .ok (sampleStat .file)⟩,
        ⟨Url.regular (text "/a/d"), .ok (sampleStat .dir)⟩], broken⟩
    else .ok ⟨[], none⟩

def sampleHandlers : Handlers where
  onDir _ := .ok ()
  onFile _ := .ok ()

/-- Copies `/a` to `/b`. -/
def sampleTask : FileIn where
  id := 0
  src := Url.regular (text "/a")
  dest := some (Url.regular (text "/b"))
  force := false
  follow := false
  stat := some (sampleStat .dir)

private theorem sample_subdirs (broken : Option String) (src : Url) :
    subdirs (sampleSource broken) sampleHandlers sampleTask src =
      if src = Url.regular (text "/a") then [Url.regular (text "/a/d")] else [] := by
  have read : (sampleSource broken).readDir src =
      if src = Url.regular (text "/a") then
        .ok ⟨[⟨Url.regular (text "/a/f"), .ok (sampleStat .file)⟩,
          ⟨Url.regular (text "/a/d"), .ok (sampleStat .dir)⟩], broken⟩
      else .ok ⟨[], none⟩ := rfl
  have file : descends sampleTask.follow (sampleStat .file) = false := by decide
  have dir : descends sampleTask.follow (sampleStat .dir) = true := by decide
  have known : ∀ url stat, (sampleSource broken).stat url sampleTask.follow (.ok stat) = .ok stat :=
    fun _ _ => rfl
  rw [subdirs, read]
  by_cases top : src = Url.regular (text "/a")
  · rw [if_pos top, if_pos top]
    simp only [sampleHandlers, List.filterMap_cons, List.filterMap_nil, known, file, dir,
      Bool.false_eq_true, if_false, if_true]
  · rw [if_neg top, if_neg top]
    rfl

private theorem sample_found {broken : Option String} {src : Url}
    (reach : Found (sampleSource broken) sampleHandlers sampleTask src) :
    src ∈ [Url.regular (text "/a"), Url.regular (text "/a/d")] := by
  induction reach with
  | root => exact List.mem_cons_self
  | step _ found _ =>
    rw [sample_subdirs] at found
    split at found
    · exact List.mem_cons_of_mem _ found
    · cases found

private theorem sample_proper (broken : Option String) :
    Proper (sampleSource broken) sampleHandlers sampleTask where
  below src listing reach read dent member := by
    simp only [sampleSource] at read
    split at read <;> cases read
    · next top =>
      subst top
      rcases List.mem_cons.mp member with rfl | member
      · exact ⟨text "f", by decide⟩
      · obtain rfl := List.mem_singleton.mp member
        exact ⟨text "d", by decide⟩
    · cases member
  distinct src listing reach read := by
    simp only [sampleSource] at read
    split at read <;> cases read
    · simp only [List.map_cons, List.map_nil]
      decide
    · exact List.nodup_nil
  ordered root same := by
    cases same
    exact nofun

theorem traverse_covers_sample :
    ∃ outcome, traverse (sampleSource none) sampleHandlers sampleTask 2 = some outcome ∧
      (Covers (sampleSource none) sampleHandlers sampleTask outcome ↔
        ∀ stat, (sampleSource none).init sampleTask = .ok stat → descends sampleTask.follow stat →
          Unbroken (sampleSource none) sampleHandlers sampleTask) :=
  traverse_covers_iff _ _ _ (sample_proper none) _ (fun _ => sample_found) 2 (Nat.le_refl _)

/-- The reader of `/a` fails behind its second entry, and nobody is told. -/
theorem traverse_loses_failure :
    Proper (sampleSource (some "EIO")) sampleHandlers sampleTask ∧
      ∃ outcome, traverse (sampleSource (some "EIO")) sampleHandlers sampleTask 2 = some outcome ∧
        ¬Covers (sampleSource (some "EIO")) sampleHandlers sampleTask outcome := by
  have stat : (sampleSource (some "EIO")).init sampleTask = .ok (sampleStat .dir) := rfl
  obtain ⟨events, ends, iff⟩ := traverse_dir (sample_proper (some "EIO")) (fun _ => sample_found)
    (Nat.le_refl _) stat (by decide)
  refine ⟨sample_proper _, _, ends, fun covers => ?_⟩
  cases iff.mp covers _ _ .root rfl rfl

end Yazi.Scheduler.Traverse
