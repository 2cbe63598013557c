import Yazi.Base.Keyed
import Yazi.Base.Tree
import Yazi.Shared.Text

/-!
The directories and files that packages are deployed in, by their paths, and the operations on
them.
-/
namespace Yazi.Cli
open Base Shared

abbrev Path := List Bytes

inductive Node where
  | file (data : Bytes)
  | dir
  deriving DecidableEq

def Node.isFile : Node → Bool
  | file _ => true
  | dir => false

/-- `io::ErrorKind::NotFound`, or another one. -/
inductive IoError where
  | notFound
  | other
  deriving DecidableEq

/-- What is there is in a directory, up to the root. -/
structure Files where
  entries : Tree Bytes Node
  distinct : entries.Distinct
  closed : ∀ e ∈ entries, e.1 ≠ [] → entries.get? e.1.dropLast = some .dir
  deriving DecidableEq

namespace Files

def get? (files : Files) (p : Path) : Option Node := files.entries.get? p

variable {files done : Files} {p : Path}

theorem get?_of_mem (files : Files) {e : Path × Node} (member : e ∈ files.entries) :
    files.get? e.1 = some e.2 := Assoc.get?_of_mem files.distinct member

theorem mem_of_get? {node : Node} (found : files.get? p = some node) : (p, node) ∈ files.entries :=
  Assoc.mem_of_get?_lawful found

theorem new_of_get? (absent : files.get? p = none) : ∀ e ∈ files.entries, (p == e.1) = false := by
  intro e member
  rw [get?, Assoc.get?_eq_find?, Option.map_eq_none_iff, List.find?_eq_none] at absent
  simpa using absent e member

/-- A new entry in a directory. -/
def create (files : Files) (p : Path) (node : Node) (absent : files.get? p = none)
    (parent : p ≠ [] → files.get? p.dropLast = some .dir) : Files where
  entries := files.entries ++ [(p, node)]
  distinct := by
    rw [← Assoc.insert_of_new node (new_of_get? absent)]
    exact files.distinct.insert p node
  closed := by
    have there {q : Path} (found : files.get? q = some .dir) :
        Assoc.get? (files.entries ++ [(p, node)]) q = some .dir := by
      have other : ¬(q == p) = true := by
        intro same
        rw [eq_of_beq same, absent] at found
        cases found
      rw [← Assoc.insert_of_new node (new_of_get? absent), Assoc.get?_insert, if_neg other]
      exact found
    intro e member
    rcases List.mem_append.mp member with old | new
    · exact fun inner => there (files.closed e old inner)
    · obtain rfl := List.mem_singleton.mp new
      exact fun inner => there (parent inner)

/-- An entry goes with nothing below it. -/
def erase (files : Files) (p : Path)
    (bare : ∀ e ∈ files.entries, e.1 ≠ [] → e.1.dropLast ≠ p) : Files where
  entries := files.entries.erase p
  distinct := files.distinct.erase p
  closed := by
    intro e member inner
    have old : e ∈ files.entries := List.mem_of_mem_filter member
    rw [Assoc.get?_erase, if_neg (by simpa using (bare e old inner).symm)]
    exact files.closed e old inner

/-- The data of a file that is there. -/
def setData (files : Files) (p : Path) (data : Bytes) : Files :=
  if file : (files.get? p).any Node.isFile = true then
    { entries := files.entries.insert p (.file data)
      distinct := files.distinct.insert p _
      closed := by
        have there {q : Path} (found : files.get? q = some .dir) :
            Assoc.get? (files.entries.insert p (.file data)) q = some .dir := by
          have other : ¬(q == p) = true := by
            intro same
            rw [← eq_of_beq same, found] at file
            cases file
          rw [Assoc.get?_insert, if_neg other]
          exact found
        intro e member inner
        rcases Assoc.mem_insert member with old | ⟨same, -⟩
        · exact there (files.closed e old inner)
        · rw [← eq_of_beq same] at inner ⊢
          cases found : files.get? p with
          | none => rw [found] at file; cases file
          | some node => exact there (files.closed _ (mem_of_get? found) inner) }
  else files

/-- What a path leads to: there is nothing below a file. -/
def lookup (files : Files) (p : Path) : Except IoError Node :=
  if p.inits.dropLast.any fun q => (files.get? q).any Node.isFile then .error .other
  else
    match files.get? p with
    | some node => .ok node
    | none => .error .notFound

def read (files : Files) (p : Path) : Except IoError Bytes :=
  match files.lookup p with
  | .ok (.file data) => .ok data
  | .ok .dir => .error .other
  | .error e => .error e

/-- The name of an entry that is right below the directory. -/
def below (p : Path) (e : Path × Node) : Option Bytes := if e.1.dropLast = p then e.1.getLast? else none

def readDir (files : Files) (p : Path) : Except IoError (List Bytes) :=
  match files.lookup p with
  | .ok .dir => .ok (files.entries.filterMap (below p))
  | .ok (.file _) => .error .other
  | .error e => .error e

/-- An entry goes, unless there is something below it. -/
def remove (files : Files) (p : Path) : Except IoError Files :=
  if bare : ∀ e ∈ files.entries, e.1 ≠ [] → e.1.dropLast ≠ p then .ok (files.erase p bare)
  else .error .other

def removeFile (files : Files) (p : Path) : Except IoError Files :=
  match files.lookup p with
  | .ok (.file _) => files.remove p
  | .ok .dir => .error .other
  | .error e => .error e

def removeDir (files : Files) (p : Path) : Except IoError Files :=
  match files.lookup p with
  | .ok .dir => files.remove p
  | .ok (.file _) => .error .other
  | .error e => .error e

/-- A new entry, where its directory is there. -/
def make (files : Files) (p : Path) (node : Node) : Except IoError Files :=
  if absent : files.get? p = none then
    if parent : p ≠ [] → files.get? p.dropLast = some .dir then
      .ok (files.create p node absent parent)
    else .error .notFound
  else .error .other

/-- One of the directories of `create_dir_all`. -/
def makeDir (files : Files) (p : Path) : Except IoError Files :=
  match files.lookup p with
  | .ok .dir => .ok files
  | .error .notFound => files.make p .dir
  | .ok (.file _) | .error .other => .error .other

def createNew (files : Files) (p : Path) : Except IoError Files :=
  match files.lookup p with
  | .error .notFound => files.make p (.file [])
  | _ => .error .other

theorem lookup_ok {node : Node} (found : files.lookup p = .ok node) : files.get? p = some node := by
  rw [lookup] at found
  split at found
  · cases found
  · cases here : files.get? p with
    | none => rw [here] at found; cases found
    | some n => rw [here] at found; cases found; rfl

theorem lookup_notFound (absent : files.lookup p = .error .notFound) : files.get? p = none := by
  rw [lookup] at absent
  split at absent
  · cases absent
  · cases here : files.get? p with
    | none => rfl
    | some n => rw [here] at absent; cases absent

/-! ### Files -/

/-- The files among the paths, with their data. -/
def only (keep : Path → Bool) (files : Files) : Tree Bytes Node :=
  files.entries.filter fun e => e.2.isFile && keep e.1

/-- The names of the files that are right below the directory. -/
def names (files : Files) (p : Path) : List Bytes :=
  (files.only fun _ => true).filterMap (below p)

/-- The data of a file, if it is there. -/
def data (files : Files) (p : Path) : Bytes :=
  match (files.only fun _ => true).get? p with
  | some (.file data) => data
  | _ => []

variable {keep : Path → Bool}

theorem only_create {node : Node} (out : node = .dir ∨ keep p = false) (absent : files.get? p = none)
    (parent : p ≠ [] → files.get? p.dropLast = some .dir) :
    (files.create p node absent parent).only keep = files.only keep := by
  have gone : (node.isFile && keep p) = false := by
    rcases out with rfl | out
    · rfl
    · rw [out, Bool.and_false]
  rw [only, create, List.filter_append, List.filter_singleton, gone]
  exact List.append_nil _

theorem only_erase {bare : ∀ e ∈ files.entries, e.1 ≠ [] → e.1.dropLast ≠ p}
    (out : files.get? p = some .dir ∨ keep p = false) :
    (files.erase p bare).only keep = files.only keep := by
  simp only [only, erase, Assoc.erase, List.filter_filter]
  refine List.filter_congr fun e member => ?_
  by_cases here : p = e.1
  · subst here
    rcases out with dir | out
    · rw [files.get?_of_mem member, Option.some_inj] at dir
      simp [dir, Node.isFile]
    · simp [out]
  · simp [here]

theorem only_setData (files : Files) (out : keep p = false) (data : Bytes) :
    (files.setData p data).only keep = files.only keep := by
  have all (t : Tree Bytes Node) :
      (t.insert p (.file data)).filter (fun e => e.2.isFile && keep e.1) =
        t.filter fun e => e.2.isFile && keep e.1 := by
    induction t with
    | nil => simp [Assoc.insert, out]
    | cons e t ih =>
      obtain ⟨q, old⟩ := e
      rw [Assoc.insert]
      split
      · next same =>
        obtain rfl := eq_of_beq same
        simp [out]
      · rw [List.filter_cons, ih, List.filter_cons]
  rw [setData]
  split
  · exact all files.entries
  · rfl

theorem only_remove (out : files.get? p = some .dir ∨ keep p = false)
    (removed : files.remove p = .ok done) : done.only keep = files.only keep := by
  rw [remove] at removed
  split at removed
  · cases removed
    exact only_erase out
  · cases removed

theorem only_removeDir (removed : files.removeDir p = .ok done) :
    done.only keep = files.only keep := by
  rw [removeDir] at removed
  split at removed
  · next dir => exact only_remove (.inl (lookup_ok dir)) removed
  all_goals cases removed

theorem only_removeFile (out : keep p = false) (removed : files.removeFile p = .ok done) :
    done.only keep = files.only keep := by
  rw [removeFile] at removed
  split at removed
  · exact only_remove (.inr out) removed
  all_goals cases removed

theorem only_make {node : Node} (out : node = .dir ∨ keep p = false)
    (made : files.make p node = .ok done) : done.only keep = files.only keep := by
  rw [make] at made
  split at made
  · split at made
    · cases made
      exact only_create out _ _
    · cases made
  · cases made

theorem only_makeDir (made : files.makeDir p = .ok done) : done.only keep = files.only keep := by
  rw [makeDir] at made
  split at made
  · cases made
    rfl
  · exact only_make (.inl rfl) made
  all_goals cases made

theorem only_createNew (out : keep p = false) (made : files.createNew p = .ok done) :
    done.only keep = files.only keep := by
  rw [createNew] at made
  split at made
  · exact only_make (.inr out) made
  · cases made

theorem get?_only (files : Files) (p : Path) :
    (files.only fun _ => true).get? p = (files.get? p).filter Node.isFile := by
  have distinct : (files.only fun _ => true).Distinct := files.distinct.filter _
  refine Option.ext fun node => ?_
  rw [Option.filter_eq_some_iff]
  constructor
  · intro found
    have member := List.mem_filter.mp (Assoc.mem_of_get?_lawful found)
    exact ⟨files.get?_of_mem member.1, by simpa using member.2⟩
  · rintro ⟨found, file⟩
    have member : (p, node) ∈ files.only fun _ => true :=
      List.mem_filter.mpr ⟨mem_of_get? found, by simpa using file⟩
    exact Assoc.get?_of_mem distinct member

theorem data_of_file {data : Bytes} (found : files.get? p = some (.file data)) :
    files.data p = data := by
  rw [Files.data, get?_only, found]
  rfl

theorem data_of_none (absent : files.get? p = none) : files.data p = [] := by
  rw [Files.data, get?_only, absent]
  rfl

theorem below_some {e : Path × Node} {name : Bytes} (here : below p e = some name) :
    e.1 = p ++ [name] := by
  rw [below] at here
  split at here
  · next parent =>
    rw [← parent]
    exact (List.dropLast_append_getLast? name here).symm
  · cases here

/-- Where no directory is among them, the names of a directory are the ones of its files. -/
theorem filter_names (files : Files) {q : Bytes → Bool}
    (plain : ∀ name ∈ files.entries.filterMap (below p), q name = true →
      files.get? (p ++ [name]) ≠ some .dir) :
    (files.entries.filterMap (below p)).filter q = (files.names p).filter q := by
  rw [names, only, List.filterMap_filter, List.filter_filterMap, List.filter_filterMap]
  refine List.filterMap_congr fun e member => ?_
  cases here : below p e with
  | none => simp
  | some name =>
    have path := below_some here
    cases kind : e.2 with
    | file data => simp [Node.isFile]
    | dir =>
      have not : ¬q name = true := by
        intro taken
        refine plain name (List.mem_filterMap.mpr ⟨e, member, here⟩) taken ?_
        rw [← path, files.get?_of_mem member, kind]
      simp [Node.isFile, not]

theorem names_of_none (absent : files.get? p = none) : files.names p = [] := by
  rw [names, List.filterMap_eq_nil_iff]
  intro e member
  by_contra some
  obtain ⟨name, here⟩ := Option.ne_none_iff_exists'.mp some
  have path := below_some here
  have parent := files.closed e (List.mem_of_mem_filter member) (by rw [path]; simp)
  rw [path, List.dropLast_concat] at parent
  rw [get?, parent] at absent
  cases absent

theorem read_ok {data : Bytes} (done : files.read p = .ok data) :
    files.get? p = some (.file data) := by
  rw [read] at done
  split at done
  · next found =>
    cases done
    exact lookup_ok found
  all_goals cases done

theorem read_notFound (absent : files.read p = .error .notFound) : files.get? p = none := by
  rw [read] at absent
  split at absent
  · cases absent
  · cases absent
  · next found =>
    cases absent
    exact lookup_notFound found

theorem readDir_ok {listed : List Bytes} (done : files.readDir p = .ok listed) :
    listed = files.entries.filterMap (below p) := by
  rw [readDir] at done
  split at done
  · cases done
    rfl
  all_goals cases done

theorem readDir_notFound (absent : files.readDir p = .error .notFound) : files.get? p = none := by
  rw [readDir] at absent
  split at absent
  · cases absent
  · cases absent
  · next found =>
    cases absent
    exact lookup_notFound found

end Files
end Yazi.Cli
