import Mathlib.Logic.Function.Basic
import Yazi.Cli.Package

/-!
What a deployment that succeeds leaves in a new directory, and what a deletion that succeeds leaves
of it.
-/
namespace Yazi.Cli
open Base Shared Dependency

def Node.data : Node → Option Bytes
  | file data => some data
  | dir => none

namespace Files

variable {files done : Files} {p q : Path}

/-- The data of a file, where there is one. -/
def fileAt (files : Files) (p : Path) : Option Bytes := (files.get? p).bind Node.data

theorem fileAt_of_none (absent : files.get? p = none) : files.fileAt p = none := by
  rw [fileAt, absent]
  rfl

theorem fileAt_file {data : Bytes} (found : files.get? p = some (.file data)) :
    files.fileAt p = some data := by
  rw [fileAt, found]
  rfl

/-- What is at the paths where one of them has a new node, or none any more. -/
theorem fileAt_of_get? {node : Option Node}
    (now : ∀ q, done.get? q = if q = p then node else files.get? q) :
    done.fileAt = Function.update files.fileAt p (node.bind Node.data) := by
  funext q
  rw [fileAt, now]
  by_cases here : q = p
  · subst here
    rw [if_pos rfl, Function.update_self]
  · rw [if_neg here, Function.update_of_ne here]
    rfl

theorem get?_create {node : Node} (absent : files.get? p = none)
    (parent : p ≠ [] → files.get? p.dropLast = some .dir) (q : Path) :
    (files.create p node absent parent).get? q = if q = p then some node else files.get? q := by
  have entries : (files.create p node absent parent).entries = files.entries.insert p node :=
    (Assoc.insert_of_new node (new_of_get? absent)).symm
  rw [get?, entries, Assoc.get?_insert]
  simp only [beq_iff_eq]
  rfl

theorem get?_remove (removed : files.remove p = .ok done) (q : Path) :
    done.get? q = if q = p then none else files.get? q := by
  rw [remove] at removed
  split at removed
  · cases removed
    rw [get?, erase, Assoc.get?_erase]
    simp only [beq_iff_eq]
    by_cases here : q = p
    · rw [if_pos here.symm, if_pos here]
    · rw [if_neg (Ne.symm here), if_neg here]
      rfl
  · cases removed

theorem fileAt_make {node : Node} (made : files.make p node = .ok done) :
    done.fileAt = Function.update files.fileAt p node.data := by
  rw [make] at made
  split at made
  · next absent =>
    split at made
    · cases made
      exact fileAt_of_get? (get?_create absent _)
    · cases made
  · cases made

theorem fileAt_setData {data : Bytes} (there : files.fileAt p ≠ none) :
    (files.setData p data).fileAt = Function.update files.fileAt p (some data) := by
  have file : (files.get? p).any Node.isFile = true := by
    rw [fileAt] at there
    cases found : files.get? p with
    | none => exact absurd (by rw [found]; rfl) there
    | some node =>
      cases node with
      | file data => rfl
      | dir => exact absurd (by rw [found]; rfl) there
  have now (q : Path) : (files.setData p data).get? q =
      if q = p then some (.file data) else files.get? q := by
    rw [setData, dif_pos file, get?, Assoc.get?_insert]
    simp only [beq_iff_eq]
    rfl
  exact fileAt_of_get? now

theorem fileAt_removeFile (removed : files.removeFile p = .ok done) :
    done.fileAt = Function.update files.fileAt p none := by
  rw [removeFile] at removed
  split at removed
  · exact fileAt_of_get? (get?_remove removed)
  all_goals cases removed

theorem removeFile_notFound (absent : files.removeFile p = .error .notFound) :
    files.fileAt p = none := by
  rw [removeFile] at absent
  split at absent
  · rw [remove] at absent
    split at absent <;> cases absent
  · cases absent
  · next found =>
    cases absent
    exact fileAt_of_none (lookup_notFound found)

theorem fileAt_createNew (made : files.createNew p = .ok done) :
    done.fileAt = Function.update files.fileAt p (some []) := by
  rw [createNew] at made
  split at made
  · exact fileAt_make made
  · cases made

/-- Operations that leave the list of the files leave what is at the paths. -/
theorem fileAt_congr (same : (done.only fun _ => true) = files.only fun _ => true) :
    done.fileAt = files.fileAt := by
  have through (files : Files) (p : Path) :
      files.fileAt p = ((files.only fun _ => true).get? p).bind Node.data := by
    rw [fileAt, get?_only]
    cases files.get? p with
    | none => rfl
    | some node => cases node <;> rfl
  funext p
  rw [through, through, same]

/-- Nothing is below what is not there. -/
theorem none_of_prefix (absent : files.get? p = none) (rest : Path) : files.get? (p ++ rest) = none := by
  induction rest using List.reverseRecOn with
  | nil => rwa [List.append_nil]
  | append_singleton rest name ih =>
    cases found : files.get? (p ++ (rest ++ [name])) with
    | none => rfl
    | some node =>
      have parent := files.closed _ (mem_of_get? found) (by simp)
      rw [← List.append_assoc, List.dropLast_concat] at parent
      rw [get?, parent] at ih
      cases ih

theorem mem_below {name : Bytes} (there : files.get? (p ++ [name]) ≠ none) :
    name ∈ files.entries.filterMap (below p) := by
  obtain ⟨node, found⟩ := Option.ne_none_iff_exists'.mp there
  exact List.mem_filterMap.mpr ⟨_, mem_of_get? found, by simp [below]⟩

theorem get?_of_fileAt (there : files.fileAt p ≠ none) : files.get? p ≠ none :=
  fun absent => there (fileAt_of_none absent)

/-- The names of a directory, or of what is not there, are the ones of its files at least. -/
theorem listed_of_readDir {names : List Bytes} {name : Bytes} (read : files.readDir p = .ok names)
    (there : files.get? (p ++ [name]) ≠ none) : name ∈ names := by
  rw [readDir_ok read]
  exact mem_below there

end Files

/-! ### What is done where it succeeds -/

/-- From the precondition, what succeeds gives the postcondition. -/
def Ends {α : Type} (P : Cx → Prop) (x : Io α) (Q : α → Cx → Prop) : Prop :=
  Triple P x fun r c => ∀ a, r = .ok a → Q a c

namespace Ends

variable {α β : Type} {P : Cx → Prop} {Q : α → Cx → Prop} {x : Io α}

theorem bind {f : α → Io β} {R : β → Cx → Prop} (first : Ends P x Q)
    (next : ∀ a, Ends (Q a) (f a) R) : Ends P (x >>= f) R := by
  refine Triple.bind (Q := fun r c => ∀ a, r = .ok a → Q a c) first (fun a => ?_) fun _ _ _ => of_error
  exact (next a).mono (fun c known => known a rfl) fun _ _ known => known

theorem pure {a : α} (post : ∀ c, P c → Q a c) : Ends P (pure a) Q := by
  refine Triple.pure fun c known b same => ?_
  cases same
  exact post c known

theorem throw {e : Error} : Ends P (throw e : Io α) Q := Triple.throw fun _ _ => of_error

theorem bindAttempt {f : Except Error α → Io β} {R : β → Cx → Prop}
    {Q : Except Error α → Cx → Prop} (first : Triple P x Q) (next : ∀ r, Ends (Q r) (f r) R) :
    Ends P (attempt x >>= f) R := Triple.bindAttempt first next

theorem mono {P' : Cx → Prop} {Q' : α → Cx → Prop} (ends : Ends P x Q) (pre : ∀ c, P' c → P c)
    (post : ∀ a c, Q a c → Q' a c) : Ends P' x Q' :=
  Triple.mono ends pre fun _ _ known a same => post a _ (known a same)

theorem of_and {K : Prop} (ends : K → Ends P x Q) : Ends (fun c => P c ∧ K) x Q :=
  Triple.of_and ends

theorem forM {l : List α} {f : α → Io PUnit} {I : List α → Cx → Prop}
    (turn : ∀ done a rest, l = done ++ a :: rest → Ends (I done) (f a) fun _ => I (done ++ [a])) :
    Ends (I []) (l.forM f) fun _ => I l := by
  have loop := Triple.forM (l := l) (f := f) (I := I) (E := fun _ _ => True)
    fun done a rest whole => Triple.mono (turn done a rest whole) (fun _ known => known) fun r c known => by
      cases r with
      | ok _ => exact known _ rfl
      | error _ => trivial
  refine Triple.mono loop (fun _ known => known) fun r c known a same => ?_
  subst same
  exact known

end Ends

/-- What is at the paths. -/
def At (φ : Path → Option Bytes) (c : Cx) : Prop := c.files.fileAt = φ

namespace Io

variable {φ ψ : Path → Option Bytes} {α : Type}

theorem ends_look (f : Files → Except IoError α) :
    Ends (At φ) (look f) fun a c => At φ c ∧ ∃ files, files.fileAt = φ ∧ f files = .ok a := by
  intro c known
  simp only [outcome, look, call]
  cases c.faults.head?.join with
  | some n =>
    intro _ same
    cases same
  | none =>
    cases seen : f c.files with
    | error e =>
      intro _ same
      cases same
    | ok a =>
      rintro _ ⟨⟩
      exact ⟨known, c.files, known, seen⟩

theorem ends_change {f : Files → Except IoError Files}
    (done : ∀ files files', files.fileAt = φ → f files = .ok files' → files'.fileAt = ψ) :
    Ends (At φ) (change f) fun _ => At ψ := by
  intro c known
  simp only [outcome, change, call]
  cases c.faults.head?.join with
  | some n =>
    intro _ same
    cases same
  | none =>
    cases changed : f c.files with
    | error e =>
      intro _ same
      cases same
    | ok files => exact fun _ _ => done _ _ known changed

theorem at_of_same {x : Io α} (keeps : Keeps (Same fun _ => true) x) :
    Triple (At φ) x fun _ => At φ := by
  intro c known
  exact (Files.fileAt_congr (keeps.outcome c (Same.refl c)).1).trans known

theorem ends_removeFile (p : Path) :
    Ends (At φ) (okOrNotFound (change (·.removeFile p))) fun _ =>
      At (Function.update φ p none) := by
  have removed : Triple (At φ) (change (·.removeFile p)) fun r c =>
      (r = .ok () → At (Function.update φ p none) c) ∧
      (r = .error (.io .notFound) → At (Function.update φ p none) c) := by
    intro c known
    simp only [outcome, change, call]
    cases c.faults.head?.join with
    | some n =>
      constructor
      · intro same
        cases same
      · intro same
        cases same
    | none =>
      cases changed : c.files.removeFile p with
      | error e =>
        refine ⟨fun same => ?_, fun same => ?_⟩
        · cases same
        cases same
        have none := Files.removeFile_notFound changed
        rw [known] at none
        exact known.trans (Function.update_eq_self_iff.mpr none.symm).symm
      | ok files =>
        refine ⟨fun _ => known ▸ Files.fileAt_removeFile changed, fun same => ?_⟩
        cases same
  refine Triple.mono (okOrNotFound_spec removed) (fun _ known => known) fun r c known a same => ?_
  subst same
  rcases known with known | ⟨-, known⟩
  · exact known.1 rfl
  · exact known.2 rfl

theorem ends_copyAndSeal (repo : Files) (src dst : Path) :
    Ends (At φ) (copyAndSeal repo src dst) fun _ => At (Function.update φ dst (repo.fileAt src)) := by
  refine Ends.bind (ends_look _) fun b => ?_
  refine Ends.mono (P := fun c => At φ c ∧ repo.fileAt src = some b) ?_ ?_ fun _ _ known => known
  · refine Ends.of_and fun data => ?_
    refine Ends.bind (ends_removeFile dst) fun _ => ?_
    refine Ends.bind (ends_change (ψ := Function.update φ dst (some [])) ?_) fun _ => ?_
    · intro files files' known made
      rw [Files.fileAt_createNew made, known, Function.update_idem]
    refine Ends.bind (Q := fun _ => At (Function.update φ dst (some b))) ?_ fun _ => ?_
    · intro c known
      have there : c.files.fileAt dst ≠ none := by
        rw [known, Function.update_self]
        exact Option.some_ne_none _
      simp only [outcome, writeAll]
      cases c.faults.head?.join with
      | some n =>
        intro _ same
        cases same
      | none =>
        intro _ _
        rw [At, Files.fileAt_setData there, known, Function.update_idem]
    · refine Ends.bind (ends_look _) fun _ => Ends.mono (ends_look _) (fun _ known => known.1) ?_
      intro _ c known
      rw [data]
      exact known.1
  · rintro c ⟨known, files, -, read⟩
    exact ⟨known, Files.fileAt_file (Files.read_ok read)⟩

/-- The files that are copied, over what was there. -/
def overlay (φ : Path → Option Bytes) (repo : Files) (src dst : Path) (names : List Bytes) :
    Path → Option Bytes := fun p =>
  match names.find? fun name => p = dst ++ [name] with
  | some name => repo.fileAt (src ++ [name])
  | none => φ p

theorem overlay_concat (φ : Path → Option Bytes) (repo : Files) (src dst : Path)
    (names : List Bytes) (name : Bytes) :
    Function.update (overlay φ repo src dst names) (dst ++ [name]) (repo.fileAt (src ++ [name])) =
      overlay φ repo src dst (names ++ [name]) := by
  funext p
  rw [overlay, List.find?_append]
  by_cases here : p = dst ++ [name]
  · subst here
    rw [Function.update_self]
    cases found : names.find? fun name' => dst ++ [name] = dst ++ [name'] with
    | none => simp
    | some name' =>
      have same : name = name' := by simpa using List.find?_some found
      simp [same]
  · rw [Function.update_of_ne here, overlay]
    cases names.find? fun name' => p = dst ++ [name'] with
    | none => simp [here]
    | some name' => rfl

theorem ends_copies (repo : Files) (src dst : Path) (names : List Bytes) :
    Ends (At φ) (names.forM fun name => copyAndSeal repo (src ++ [name]) (dst ++ [name])) fun _ =>
      At (overlay φ repo src dst names) := by
  refine Ends.mono (Ends.forM (I := fun done => At (overlay φ repo src dst done))
    fun done name rest _ => ?_) (fun _ known => known) fun _ _ known => known
  rw [← overlay_concat]
  exact ends_copyAndSeal repo _ _

theorem overlay_of_mem {repo : Files} {src dst : Path} {names : List Bytes} {name : Bytes}
    (member : name ∈ names) : overlay φ repo src dst names (dst ++ [name]) =
      repo.fileAt (src ++ [name]) := by
  rw [overlay]
  cases found : names.find? fun name' => dst ++ [name] = dst ++ [name'] with
  | none => exact absurd (List.find?_eq_none.mp found name member) (by simp)
  | some name' =>
    have same : name = name' := by simpa using List.find?_some found
    rw [same]

theorem overlay_of_ne {repo : Files} {src dst p : Path} {names : List Bytes}
    (other : ∀ name ∈ names, p ≠ dst ++ [name]) : overlay φ repo src dst names p = φ p := by
  rw [overlay, List.find?_eq_none.mpr fun name member => by simpa using other name member]

theorem at_look (f : Files → Except IoError α) :
    Triple (At φ) (look f) fun r c => At φ c ∧ ∃ files, files.fileAt = φ ∧
      (∀ a, r = .ok a → f files = .ok a) ∧
        (r = .error (.io .notFound) → f files = .error .notFound) := by
  intro c known
  obtain ⟨⟨same, -⟩, seen⟩ := reads_look f c ⟨rfl, rfl⟩
  exact ⟨(congrArg Files.fileAt same).trans known, c.files, known, seen⟩

theorem ends_any {P : Cx → Prop} (x : Io α) : Ends P x fun _ _ => True :=
  fun _ _ _ _ => trivial

end Io

namespace Dependency

variable {φ : Path → Option Bytes} {d : Dependency} {digest : Bytes → Bytes}

/-- Nothing is at these paths any more, and the others are as before. -/
structure Gone (S : Path → Prop) (φ ψ : Path → Option Bytes) : Prop where
  gone : ∀ p, S p → ψ p = none
  other : ∀ p, ¬S p → ψ p = φ p

theorem Gone.of_none {S S' : Path → Prop} {φ ψ : Path → Option Bytes} (gone : Gone S φ ψ)
    (more : ∀ p, S p → S' p) (none : ∀ p, S' p → ¬S p → φ p = none) : Gone S' φ ψ where
  gone p here := by
    by_cases there : S p
    · exact gone.gone p there
    · exact (gone.other p there).trans (none p here there)
  other p out := gone.other p fun there => out (more p there)

theorem Gone.trans {S S' : Path → Prop} {φ ψ χ : Path → Option Bytes} (first : Gone S φ ψ)
    (second : Gone S' ψ χ) : Gone (fun p => S p ∨ S' p) φ χ where
  gone p here := by
    by_cases there : S' p
    · exact second.gone p there
    · exact (second.other p there).trans (first.gone p (here.resolve_right there))
  other p out :=
    (second.other p fun there => out (.inr there)).trans (first.other p fun here => out (.inl here))

theorem ends_removals {x : Bytes → Io PUnit} (place : Bytes → Path) (names : List Bytes)
    (turn : ∀ name φ, Ends (At φ) (x name) fun _ => At (Function.update φ (place name) none)) :
    Ends (At φ) (names.forM x) fun _ c =>
      Gone (fun p => ∃ name ∈ names, p = place name) φ c.files.fileAt := by
  refine Ends.mono (Ends.forM (I := fun done c =>
    Gone (fun p => ∃ name ∈ done, p = place name) φ c.files.fileAt) fun done name rest _ => ?_) ?_
    fun _ _ known => known
  · intro c known a same
    have removed : (outcome (x name) c).2.files.fileAt = _ :=
      turn name c.files.fileAt c rfl a same
    rw [removed]
    constructor
    · rintro p ⟨name', member, rfl⟩
      by_cases here : place name' = place name
      · rw [here, Function.update_self]
      · rw [Function.update_of_ne here]
        rcases List.mem_append.mp member with before | now
        · exact known.gone _ ⟨name', before, rfl⟩
        · exact absurd (congrArg place (List.mem_singleton.mp now)) here
    · intro p out
      have here : p ≠ place name := fun same =>
        out ⟨name, List.mem_append_right _ List.mem_cons_self, same⟩
      rw [Function.update_of_ne here]
      refine known.other p ?_
      rintro ⟨name', before, same⟩
      exact out ⟨name', List.mem_append_left _ before, same⟩
  · intro c known
    refine ⟨?_, fun p _ => congrFun known p⟩
    rintro p ⟨name, none, -⟩
    exact absurd none List.not_mem_nil

/-- The path is one of the assets of the dependency. -/
def IsAsset (d : Dependency) (p : Path) : Prop := ∃ name, p = d.target ++ [assets, name]

/-- The path is one of the sources of the dependency. -/
def IsSource (d : Dependency) (p : Path) : Prop :=
  ∃ file, owns d.isFlavor file = true ∧ p = d.target ++ [file]

theorem ends_clearAssets :
    Ends (At φ) (clearAssets d) fun _ c => Gone d.IsAsset φ c.files.fileAt := by
  have assoc (name : Bytes) : d.target ++ [assets] ++ [name] = d.target ++ [assets, name] :=
    List.append_assoc ..
  refine Ends.bindAttempt (Io.at_look _) fun r => ?_
  split
  · next names =>
    refine Ends.mono (P := fun c => At φ c ∧
      ∀ name, φ (d.target ++ [assets, name]) ≠ none → name ∈ names) ?_ ?_ fun _ _ known => known
    · refine Ends.of_and fun all => ?_
      refine Ends.mono (ends_removals (fun name => d.target ++ [assets, name]) names fun name φ => ?_)
        (fun _ known => known) fun _ c gone => ?_
      · refine Io.ends_change fun files files' known removed => ?_
        rw [Files.fileAt_removeFile removed, known]
      · refine gone.of_none ?_ ?_
        · rintro p ⟨name, -, rfl⟩
          exact ⟨name, rfl⟩
        · rintro p ⟨name, rfl⟩ other
          by_contra there
          exact other ⟨name, all name there, rfl⟩
    · rintro c ⟨known, files, same, read, -⟩
      refine ⟨known, fun name there => Files.listed_of_readDir (read names rfl) ?_⟩
      rw [assoc]
      exact Files.get?_of_fileAt (same ▸ there)
  · refine Ends.pure fun c known => ?_
    obtain ⟨known, files, same, -, absent⟩ := known
    have none := Files.readDir_notFound (absent rfl)
    refine ⟨?_, fun p _ => congrFun known p⟩
    rintro p ⟨name, rfl⟩
    have below := Files.none_of_prefix none [name]
    rw [assoc] at below
    rw [known, ← same]
    exact Files.fileAt_of_none below
  · exact Ends.throw

theorem ends_deleteAssets :
    Ends (At φ) (deleteAssets d) fun _ c => Gone d.IsAsset φ c.files.fileAt := by
  refine Ends.bind ends_clearAssets fun _ => ?_
  refine Ends.bindAttempt (Q := fun _ c => Gone d.IsAsset φ c.files.fileAt) ?_ fun _ =>
    Ends.pure fun _ known => known
  intro c known
  have same := Io.at_of_same (Io.keeps_clean (d.target ++ [assets])) c rfl
  rwa [show _ = c.files.fileAt from same]

/-- All of the sources that are there are named. -/
theorem at_sources (d : Dependency) :
    Ends (At φ) (sources d) fun names c => At φ c ∧
      (∀ file ∈ names, owns d.isFlavor file = true) ∧
        ∀ file, owns d.isFlavor file = true → φ (d.target ++ [file]) ≠ none → file ∈ names := by
  intro c known names same
  obtain ⟨-, own⟩ := @sources_owns (fun _ => false) d c c (Same.refl c)
  obtain ⟨⟨files, -⟩, listed⟩ := @reads_sources c.files c.self d c ⟨rfl, rfl⟩
  refine ⟨(congrArg Files.fileAt files).trans known, own names same, fun file owned there => ?_⟩
  rw [listed names same]
  cases flavor : d.isFlavor with
  | true =>
    rw [flavor, owns, if_pos rfl, List.contains_iff_mem] at owned
    exact owned
  | false =>
    rw [flavor, owns, if_neg Bool.false_ne_true, Bool.or_eq_true, List.contains_iff_mem] at owned
    rw [if_neg Bool.false_ne_true, mem_sorted, List.mem_append]
    refine owned.imp_right fun source => List.mem_filter.mpr ⟨Files.mem_below ?_, source⟩
    exact Files.get?_of_fileAt (known ▸ there)

theorem ends_deleteSources :
    Ends (At φ) (deleteSources d) fun _ c => Gone d.IsSource φ c.files.fileAt := by
  refine Ends.bind (at_sources d) fun names => ?_
  refine Ends.of_and fun known => ?_
  obtain ⟨own, all⟩ := known
  refine Ends.bind (ends_removals (fun file => d.target ++ [file]) names fun file φ =>
    Io.ends_removeFile _) fun _ => ?_
  refine Ends.bindAttempt (Q := fun _ c => Gone d.IsSource φ c.files.fileAt) ?_ fun _ =>
    Ends.pure fun _ known => known
  intro c gone
  have keeps : Keeps (Same fun _ => true)
      (Io.okOrNotFound (Io.change (·.removeDir d.target))) :=
    Io.keeps_okOrNotFound (Io.keeps_change fun _ _ => Files.only_removeDir)
  have same := Io.at_of_same keeps c rfl
  rw [show _ = c.files.fileAt from same]
  refine gone.of_none ?_ ?_
  · rintro p ⟨file, member, rfl⟩
    exact ⟨file, own file member, rfl⟩
  · rintro p ⟨file, owned, rfl⟩ other
    by_contra there
    exact other ⟨file, all file owned there, rfl⟩

/-- A path of the dependency's own. -/
def IsOwn (d : Dependency) (p : Path) : Prop := d.IsAsset p ∨ d.IsSource p

theorem ends_delete (discard : Bool) :
    Ends (At φ) (delete digest d discard) fun _ c => Gone d.IsOwn φ c.files.fileAt := by
  refine Ends.bind (Q := fun exist c => At φ c ∧
    (exist = false → ∀ p, d.IsOwn p → φ p = none)) ?_ fun exist => ?_
  · intro c known a same
    obtain ⟨⟨files, -⟩, absent⟩ := @reads_maybeExists c.files c.self d.target c ⟨rfl, rfl⟩
    refine ⟨(congrArg Files.fileAt files).trans known, fun away p own => ?_⟩
    subst away
    have none := Files.lookup_notFound (absent same)
    rw [← known]
    rcases own with ⟨name, rfl⟩ | ⟨file, -, rfl⟩
    · exact Files.fileAt_of_none (Files.none_of_prefix none _)
    · exact Files.fileAt_of_none (Files.none_of_prefix none _)
  · refine Ends.of_and fun away => ?_
    refine Ends.bind (Q := fun _ => At φ) ?_ fun _ => ?_
    · exact (Io.at_of_same (keeps_guard digest d exist discard)).mono (fun _ known => known)
        fun _ _ known _ _ => known
    · refine Triple.ite (fun _ => ?_) fun exists' => ?_
      · refine Ends.bind ends_deleteAssets fun _ => ?_
        intro c gone
        have rest : Ends (At c.files.fileAt) (do let _ ← deleteSources d; pure ()) fun _ c' =>
            Gone d.IsOwn φ c'.files.fileAt :=
          Ends.bind (Ends.mono ends_deleteSources (fun _ known => known) fun _ _ later =>
            gone.trans later) fun _ => Ends.pure fun _ known => known
        exact rest c rfl
      · have none := away (Bool.eq_false_iff.mpr exists')
        refine Ends.pure fun c known => ⟨fun p own => ?_, fun p _ => congrFun known p⟩
        rw [known]
        exact none p own

/-- The own files of the dependency are the ones of the repository, and others are as before. -/
structure Placed (φ : Path → Option Bytes) (repo : Files) (d : Dependency)
    (ψ : Path → Option Bytes) : Prop where
  source : ∀ file, ψ (d.target ++ [file]) =
    if owns d.isFlavor file then repo.fileAt (d.local ++ [file]) else φ (d.target ++ [file])
  asset : ∀ name, ψ (d.target ++ [assets, name]) = repo.fileAt (d.local ++ [assets, name])
  other : ∀ p, ¬d.IsOwn p → ψ p = φ p

/-- The names that are copied are the ones of the repository. -/
def Lists (repo : Files) (src : Path) (S : Bytes → Prop) (names : List Bytes) : Prop :=
  (∀ name ∈ names, S name) ∧ ∀ name, S name → repo.fileAt (src ++ [name]) ≠ none → name ∈ names

/-- What is copied where nothing was. -/
theorem overlay_at {repo : Files} {src dst : Path} {S : Bytes → Prop} {names : List Bytes}
    (lists : Lists repo src S names) {name : Bytes} (among : S name) (new : φ (dst ++ [name]) = none) :
    Io.overlay φ repo src dst names (dst ++ [name]) = repo.fileAt (src ++ [name]) := by
  by_cases member : name ∈ names
  · exact Io.overlay_of_mem member
  · have absent := not_not.mp (mt (lists.2 name among) member)
    rw [absent, Io.overlay_of_ne, new]
    intro name' member' same
    have here : name = name' := by simpa using same
    exact member (here ▸ member')

theorem ends_deployAssets (repo : Files) (src dst : Path) :
    Ends (At φ) (deployAssets repo src dst) fun _ c => ∃ names, Lists repo src (fun _ => True) names ∧
      At (Io.overlay φ repo src dst names) c := by
  refine Ends.bindAttempt (Io.at_look _) fun r => ?_
  split
  · next names =>
    refine Ends.mono (P := fun c => At φ c ∧ Lists repo src (fun _ => True) names) ?_ ?_
      fun _ _ known => known
    · refine Ends.of_and fun lists => ?_
      refine Ends.bind (Q := fun _ => At φ) ?_ fun _ => ?_
      · exact (Io.at_of_same (Io.keeps_createDirAll dst)).mono (fun _ known => known)
          fun _ _ known _ _ => known
      · exact Ends.mono (Io.ends_copies repo src dst names) (fun _ known => known)
          fun _ _ known => ⟨names, lists, known⟩
    · rintro c ⟨known, files, -, read, -⟩
      refine ⟨known, fun _ _ => trivial, fun name _ there => ?_⟩
      exact Files.listed_of_readDir (read names rfl) (Files.get?_of_fileAt there)
  · refine Ends.pure fun c known => ?_
    obtain ⟨known, files, -, -, absent⟩ := known
    refine ⟨[], ⟨fun _ _ => trivial, fun name _ there => ?_⟩, known⟩
    have none := Files.none_of_prefix (Files.readDir_notFound (absent rfl)) [name]
    exact absurd (Files.fileAt_of_none none) there
  · exact Ends.throw

theorem placed_overlay {repo : Files} {names assets' : List Bytes}
    (lists : Lists repo d.local (fun file => owns d.isFlavor file = true) names)
    (listed : Lists repo (d.local ++ [assets]) (fun _ => True) assets')
    (new : ∀ p, d.IsOwn p → φ p = none) :
    Placed φ repo d (Io.overlay
      (Io.overlay φ repo (d.local ++ [assets]) (d.target ++ [assets]) assets')
      repo d.local d.target names) := by
  have assoc (dir : Path) (name : Bytes) : dir ++ [assets, name] = dir ++ [assets] ++ [name] := by
    rw [List.append_assoc]
    rfl
  have inner {p : Path} (other : ¬d.IsAsset p) :
      Io.overlay φ repo (d.local ++ [assets]) (d.target ++ [assets]) assets' p = φ p := by
    refine Io.overlay_of_ne fun name _ same => other ⟨name, ?_⟩
    rw [same, assoc]
  have source (file : Bytes) : ¬d.IsAsset (d.target ++ [file]) := by
    rintro ⟨name, same⟩
    simp at same
  refine ⟨fun file => ?_, fun name => ?_, fun p other => ?_⟩
  · split
    · next owned =>
      refine overlay_at lists owned ?_
      rw [inner (source file)]
      exact new _ (.inr ⟨file, owned, rfl⟩)
    · next foreign =>
      rw [Io.overlay_of_ne, inner (source file)]
      intro file' member same
      have here : file = file' := by simpa using same
      exact foreign (here ▸ lists.1 file' member)
  · rw [Io.overlay_of_ne, assoc, assoc]
    · refine overlay_at listed trivial ?_
      rw [← assoc]
      exact new _ (.inl ⟨name, rfl⟩)
    · intro file _ same
      simp at same
  · rw [Io.overlay_of_ne, inner fun asset => other (.inl asset)]
    intro file member same
    exact other (.inr ⟨file, lists.1 file member, same⟩)

/-- The rest of `place` after the assets. -/
theorem ends_copied {repo : Files} {exist : Bool} {names assets' : List Bytes}
    (lists : Lists repo d.local (fun file => owns d.isFlavor file = true) names)
    (listed : Lists repo (d.local ++ [assets]) (fun _ => True) assets')
    (new : ∀ p, d.IsOwn p → φ p = none) :
    Ends (At (Io.overlay φ repo (d.local ++ [assets]) (d.target ++ [assets]) assets')) (do
      let res2 ← attempt (deploySources repo d.local d.target names)
      settle digest exist d ((res2 matches .error _) || false)
      let _ ← attempt (Io.clean d.target)
      Io.ofExcept res2
      Io.ofExcept (.ok ())
      rehash digest) fun _ c => Placed φ repo d c.files.fileAt := by
  refine Ends.bindAttempt (Io.ends_copies repo _ _ names) fun res2 => ?_
  cases res2 with
  | error e =>
    refine Ends.bind (Io.ends_any _) fun _ => Ends.bind (Io.ends_any _) fun _ => ?_
    exact Ends.bind (Q := fun _ _ => False) Ends.throw fun _ _ => False.elim
  | ok _ =>
    have nothing : settle digest exist d false = pure () := by cases exist <;> rfl
    refine Ends.mono (P := At (Io.overlay
      (Io.overlay φ repo (d.local ++ [assets]) (d.target ++ [assets]) assets')
      repo d.local d.target names)) ?_ (fun _ known => known _ rfl) fun _ _ known => known
    have whole := placed_overlay lists listed new
    revert whole
    generalize Io.overlay (Io.overlay φ repo (d.local ++ [assets]) (d.target ++ [assets]) assets')
      repo d.local d.target names = ψ
    intro whole
    refine Ends.bind (Q := fun _ => At ψ) ?_ fun _ => ?_
    · exact nothing ▸ Ends.pure fun _ known => known
    refine Ends.bindAttempt (Io.at_of_same (Io.keeps_clean _)) fun _ => ?_
    refine Ends.bind (Q := fun _ => At ψ) (Ends.pure fun _ known => known) fun _ => ?_
    refine Ends.bind (Q := fun _ => At ψ) (Ends.pure fun _ known => known) fun _ => ?_
    intro c known _ _
    obtain ⟨files, -⟩ := reads_rehash digest c ⟨rfl, rfl⟩
    rw [files, known]
    exact whole

theorem ends_place (repo : Files) {names : List Bytes} (discard : Bool)
    (lists : Lists repo d.local (fun file => owns d.isFlavor file = true) names)
    (new : ∀ p, d.IsOwn p → φ p = none) :
    Ends (At φ) (place digest repo d.local names discard d) fun _ c =>
      Placed φ repo d c.files.fileAt := by
  have still {α : Type} {x : Io α} {ψ : Path → Option Bytes} (keeps : Keeps (Same fun _ => true) x) :
      Ends (At ψ) x fun _ => At ψ :=
    (Io.at_of_same keeps).mono (fun _ known => known) fun _ _ known _ _ => known
  refine Ends.bind (still (Io.keeps_maybeExists (Io.keeps_look _))) fun exist => ?_
  refine Ends.bind (still (keeps_guard digest d exist discard)) fun _ => ?_
  refine Ends.bind (still (Io.keeps_createDirAll _)) fun _ => ?_
  refine Ends.bind (Q := fun _ => At φ) ?_ fun _ => ?_
  · refine Ends.mono ends_deleteAssets (fun _ known => known) fun _ c gone => ?_
    funext p
    by_cases asset : d.IsAsset p
    · rw [gone.gone p asset, new p (.inl asset)]
    · exact gone.other p asset
  refine Ends.bindAttempt (ends_deployAssets repo _ _) fun res1 => ?_
  cases res1 with
  | error e =>
    refine Ends.bind (Io.ends_any _) fun res2 => Ends.bind (Io.ends_any _) fun _ => ?_
    refine Ends.bind (Io.ends_any _) fun _ => Ends.bind (Io.ends_any _) fun _ => ?_
    exact Ends.bind (Q := fun _ _ => False) Ends.throw fun _ _ => False.elim
  | ok _ =>
    rintro c copied
    obtain ⟨assets', listed, at'⟩ := copied _ rfl
    exact ends_copied lists listed new c at'

theorem Placed.congr {repo : Files} {ψ : Path → Option Bytes} {d' : Dependency}
    (placed : Placed φ repo d ψ) (bare : d'.bare = d.bare) (flavor : d'.isFlavor = d.isFlavor) :
    Placed φ repo d' ψ := by
  obtain ⟨use, name, parent, child, rev, hash, isFlavor⟩ := d
  obtain ⟨use', name', parent', child', rev', hash', isFlavor'⟩ := d'
  obtain rfl : isFlavor' = isFlavor := flavor
  simp only [Dependency.bare, mk.injEq, and_true] at bare
  obtain ⟨-, rfl, -, rfl⟩ := bare
  exact ⟨placed.source, placed.asset, placed.other⟩

theorem lists_flavor (repo : Files) (src : Path) :
    Lists repo src (fun file => owns true file = true) flavorFiles := by
  have same (file : Bytes) : owns true file = true ↔ file ∈ flavorFiles := by
    rw [owns, if_pos rfl, List.contains_iff_mem]
  exact ⟨fun file => (same file).mpr, fun file owned _ => (same file).mp owned⟩

theorem lists_plugin {repo : Files} {src : Path} {listed : List Bytes}
    (read : repo.readDir src = .ok listed) :
    Lists repo src (fun file => owns false file = true) (sorted (fixed ++ listed.filter isSource)) := by
  have same (file : Bytes) : owns false file = true ↔ file ∈ fixed ∨ isSource file = true := by
    rw [owns, if_neg Bool.false_ne_true, Bool.or_eq_true, List.contains_iff_mem]
  constructor
  · intro file member
    rw [same]
    exact (List.mem_append.mp (mem_sorted.mp member)).imp_right fun other =>
      (List.mem_filter.mp other).2
  · intro file owned there
    rw [mem_sorted, List.mem_append]
    refine ((same file).mp owned).imp_right fun source => List.mem_filter.mpr ⟨?_, source⟩
    exact Files.listed_of_readDir read (Files.get?_of_fileAt there)

/-- From where the dependency is the one to deploy. -/
def AtSelf (φ : Path → Option Bytes) (d : Dependency) (c : Cx) : Prop := At φ c ∧ c.self = d

theorem atSelf_of_same {α : Type} {x : Io α} (keeps : Keeps (Same fun _ => true) x) :
    Ends (AtSelf φ d) x fun _ => AtSelf φ d :=
  fun c known _ _ => ⟨Io.at_of_same keeps c known.1, self_of_same keeps c known.2⟩

theorem ends_self : Ends (AtSelf φ d) Io.self fun d' c => AtSelf φ d c ∧ d' = d := by
  intro c known d' same
  exact ⟨known, (Except.ok.inj same).symm.trans known.2⟩

theorem ends_deploy (repo : Files) (discard : Bool)
    (new : ∀ isFlavor p, IsOwn { d with isFlavor } p → φ p = none) :
    Ends (AtSelf φ d) (deploy digest repo discard) fun _ c =>
      Placed φ repo c.self c.files.fileAt ∧ c.self.bare = d.bare := by
  refine Ends.bind ends_self fun self => Ends.of_and fun same => ?_
  subst same
  refine Ends.bind (atSelf_of_same (Io.keeps_maybeExists (Io.keeps_look _))) fun isFlavor => ?_
  refine Ends.bind (Q := fun _ => AtSelf φ { self with isFlavor }) ?_ fun _ => ?_
  · rintro c ⟨known, here⟩ _ _
    exact ⟨known, congrArg (fun d : Dependency => { d with isFlavor }) here⟩
  refine Ends.bind (Q := fun names c => AtSelf φ { self with isFlavor } c ∧
    Lists repo self.local (fun file => owns isFlavor file = true) names) ?_ fun names => ?_
  · refine Triple.ite (fun flavor => ?_) fun plugin => ?_
    · rw [flavor]
      exact Ends.pure fun c known => ⟨known, lists_flavor repo _⟩
    · rw [Bool.eq_false_iff.mpr plugin]
      refine Ends.bind (Q := fun listed c => AtSelf φ { self with isFlavor := false } c ∧
        repo.readDir self.local = .ok listed) ?_ fun listed => ?_
      · rintro c ⟨known, here⟩ listed read
        obtain ⟨known, -, -, read⟩ := Io.ends_look (fun _ => repo.readDir self.local) c known listed read
        have keeps : Keeps (Same fun _ => true) (Io.look fun _ => repo.readDir self.local) :=
          Io.keeps_look _
        exact ⟨⟨known, self_of_same keeps c here⟩, read⟩
      · exact Ends.pure fun c known => ⟨known.1, lists_plugin known.2⟩
  refine Ends.of_and fun lists => ?_
  refine Ends.bind ends_self fun d' => Ends.of_and fun same => ?_
  subst same
  rintro c ⟨known, here⟩ _ done
  have placed := ends_place (d := { self with isFlavor }) repo discard lists (new isFlavor) c known _ done
  have hashed := @hashed_place _ digest repo self.local names lists.1 discard c here
  have kept := (kept_place digest (spares_none { self with isFlavor }) repo self.local lists.1
    discard).outcome c ⟨rfl, rfl⟩
  have bare := kept.2.trans (congrArg Dependency.bare here)
  exact ⟨placed.congr bare hashed.1, bare⟩

theorem ends_add (g : Git) (discard : Bool)
    (new : ∀ isFlavor p, IsOwn { d with isFlavor } p → φ p = none) :
    Ends (AtSelf φ d) (add digest g discard) fun _ c => ∃ repo, g.pulled = some repo ∧
      Placed φ repo c.self c.files.fileAt ∧ c.self.bare = d.bare := by
  rw [add]
  cases pulled : g.pulled with
  | none => exact Ends.bind (Q := fun _ _ => False) Ends.throw fun _ _ => False.elim
  | some repo =>
    refine Ends.bind (Q := fun repo' c => AtSelf φ d c ∧ repo' = repo) ?_ fun repo' => ?_
    · exact Ends.pure fun c known => ⟨known, rfl⟩
    refine Ends.of_and fun same => ?_
    subst same
    refine Ends.bind (ends_deploy repo' discard new) fun _ => ?_
    cases g.revision with
    | none => exact Ends.bind (Q := fun _ _ => False) Ends.throw fun _ _ => False.elim
    | some rev =>
      refine Ends.bind (Q := fun _ c => Placed φ repo' c.self c.files.fileAt ∧ c.self.bare = d.bare)
        (Ends.pure fun _ known => known) fun _ => ?_
      rintro c ⟨placed, bare⟩ _ _
      exact ⟨repo', rfl, placed.congr rfl rfl, bare⟩

end Dependency

namespace Package

variable {p : Package} {d other : Dependency}

theorem identical_congr {d' : Dependency} (bare : d'.bare = d.bare) (other : Dependency) :
    other.identical d' = other.identical d := by
  obtain ⟨use, name, parent, child, rev, hash, isFlavor⟩ := d
  obtain ⟨use', name', parent', child', rev', hash', isFlavor'⟩ := d'
  simp only [Dependency.bare, Dependency.mk.injEq, and_true] at bare
  obtain ⟨-, -, rfl, rfl⟩ := bare
  rfl

theorem identical_none (none : p.identical d = none) : ∀ other ∈ p.all, ¬other.identical d = true :=
  List.find?_eq_none.mp none

theorem load_load (p : Package) : p.load.load = p.load := by
  simp only [load, List.map_map]
  rfl

theorem load_push (p : Package) (d : Dependency) : (p.push d).load = p.load.push d := by
  unfold push load
  cases flavor : d.isFlavor with
  | true =>
    have same : { d with isFlavor := true } = d := by rw [← flavor]
    simp [same]
  | false =>
    have same : { d with isFlavor := false } = d := by rw [← flavor]
    simp [same]

theorem retain_push (none : p.identical d = none) : (p.push d).retain d = p := by
  have absent := identical_none none
  have self : d.identical d = true := by simp [Dependency.identical]
  have drop {l : List Dependency} (among : ∀ other ∈ l, ¬other.identical d = true) :
      (l ++ [d]).filter (fun other => !other.identical d) = l := by
    rw [List.filter_append, List.filter_singleton, self]
    refine (List.append_nil _).trans (List.filter_eq_self.mpr fun other member => ?_)
    simpa using among other member
  rw [retain, push]
  cases d.isFlavor with
  | true => simp [drop fun other member => absent other (List.mem_append_right _ member)]
  | false => simp [drop fun other member => absent other (List.mem_append_left _ member)]

end Package

namespace Pkg

variable {digest : Bytes → Bytes} {s t u : Pkg}

theorem turned_isSome {r : Except Error Unit} {p : Package} {files : Files} {saved : Bool}
    (well : (s.turned r p files saved).package.isSome = true) :
    r = .ok () ∧ s.turned r p files saved = ⟨files, p, some p⟩ := by
  cases r with
  | error e => cases well
  | ok _ =>
    cases saved with
    | false => cases well
    | true => exact ⟨rfl, rfl⟩

/-- An addition that succeeds. -/
theorem add_ok {p : Package} {use : Bytes} {d : Dependency} {w : World}
    (parsed : fromStr use = .ok d) (well : (s.add digest p use w).package.isSome = true) :
    p.identical d = none ∧ ∃ c,
      outcome (Dependency.add digest w.git false) ⟨s.files, w.faults, d⟩ = (.ok (), c) ∧
        s.add digest p use w = ⟨c.files, p.push c.self, some (p.push c.self)⟩ := by
  unfold add at well ⊢
  rw [parsed] at well ⊢
  dsimp only at well ⊢
  cases there : p.identical d with
  | some other =>
    rw [there] at well
    cases (turned_isSome well).1
  | none =>
    rw [there] at well
    dsimp only at well ⊢
    revert well
    generalize outcome (Dependency.add digest w.git false) ⟨s.files, w.faults, d⟩ = done
    obtain ⟨r, c⟩ := done
    intro well
    cases r with
    | error e => cases (turned_isSome well).1
    | ok _ => exact ⟨rfl, c, rfl, (turned_isSome well).2⟩

/-- A deletion that succeeds. -/
theorem delete_ok {p : Package} {use : Bytes} {d : Dependency} {discard : Bool} {w : World}
    (parsed : fromStr use = .ok d) (well : (s.delete digest p use discard w).package.isSome = true) :
    ∃ dep c, p.identical d = some dep ∧
      outcome (Dependency.delete digest dep discard) ⟨s.files, w.faults, dep⟩ = (.ok (), c) ∧
        s.delete digest p use discard w = ⟨c.files, p.retain dep, some (p.retain dep)⟩ := by
  unfold delete at well ⊢
  rw [parsed] at well ⊢
  dsimp only at well ⊢
  cases there : p.identical d with
  | none =>
    rw [there] at well
    cases (turned_isSome well).1
  | some dep =>
    rw [there] at well
    dsimp only at well ⊢
    revert well
    generalize ran : outcome (Dependency.delete digest dep discard) ⟨s.files, w.faults, dep⟩ = done
    obtain ⟨r, c⟩ := done
    intro well
    cases r with
    | error e => cases (turned_isSome well).1
    | ok _ => exact ⟨dep, c, rfl, ran, (turned_isSome well).2⟩

/-- A command with one turn that ends well. -/
theorem command_cases {e : Event} (run : Run (step digest) s [.load, e, .exit] t) :
    ∃ t', step digest { s with package := some s.toml.load } e = some t' ∧
      t'.package.isSome = true ∧ t = { t' with package := none } := by
  rcases run with _ | ⟨loads, rest⟩
  rcases rest with _ | ⟨move, rest⟩
  rcases rest with _ | ⟨exits, rest⟩
  cases rest
  rw [step] at loads
  split at loads
  · cases loads
    obtain ⟨p, running, rfl⟩ := Option.map_eq_some_iff.mp exits
    exact ⟨_, move, by rw [running]; rfl, rfl⟩
  · cases loads

theorem command_add {use : Bytes} {d : Dependency} {w : World} (parsed : fromStr use = .ok d)
    (run : Run (step digest) s [.load, .add use w, .exit] t) :
    s.toml.load.identical d = none ∧ ∃ c,
      outcome (Dependency.add digest w.git false) ⟨s.files, w.faults, d⟩ = (.ok (), c) ∧
        t = ⟨c.files, s.toml.load.push c.self, none⟩ := by
  obtain ⟨t', move, well, rfl⟩ := command_cases run
  cases move
  obtain ⟨absent, c, ran, done⟩ := add_ok parsed well
  refine ⟨absent, c, ran, ?_⟩
  dsimp only
  rw [done]

theorem command_delete {use : Bytes} {d : Dependency} {discard : Bool} {w : World}
    (parsed : fromStr use = .ok d)
    (run : Run (step digest) s [.load, .delete use discard w, .exit] t) :
    ∃ dep c, s.toml.load.identical d = some dep ∧
      outcome (Dependency.delete digest dep discard) ⟨s.files, w.faults, dep⟩ = (.ok (), c) ∧
        t = ⟨c.files, s.toml.load.retain dep, none⟩ := by
  obtain ⟨t', move, well, rfl⟩ := command_cases run
  cases move
  obtain ⟨dep, c, found, ran, done⟩ := delete_ok parsed well
  refine ⟨dep, c, found, ran, ?_⟩
  dsimp only
  rw [done]

/-- What one `ya pkg` added into a new directory, another can delete: `package.toml` then has what
was read from it at first, and every path has the file it had. -/
theorem add_delete {use : Bytes} {d : Dependency} {w w' : World} {discard : Bool}
    (parsed : fromStr use = .ok d)
    (new : ∀ isFlavor, s.files.get? (directory isFlavor d.name) = none)
    (added : Run (step digest) s [.load, .add use w, .exit] t)
    (deleted : Run (step digest) t [.load, .delete use discard w', .exit] u) :
    u.toml = s.toml.load ∧ u.files.fileAt = s.files.fileAt := by
  obtain ⟨absent, c, ran, rfl⟩ := command_add parsed added
  obtain ⟨dep, c', found, ran', rfl⟩ := command_delete parsed deleted
  dsimp only at found ran'
  have fresh (isFlavor : Bool) (q : Path) (own : IsOwn { d with isFlavor } q) :
      s.files.fileAt q = none := by
    rcases own with ⟨name, rfl⟩ | ⟨file, -, rfl⟩
    · exact Files.fileAt_of_none (Files.none_of_prefix (new isFlavor) _)
    · exact Files.fileAt_of_none (Files.none_of_prefix (new isFlavor) _)
  have adding := @ends_add s.files.fileAt d digest w.git false fresh ⟨s.files, w.faults, d⟩ ⟨rfl, rfl⟩ ()
  rw [ran] at adding
  obtain ⟨repo, -, placed, bare⟩ := adding rfl
  rw [Package.load_push, Package.load_load] at found
  have self : dep = c.self := by
    have identical := List.find?_some found
    refine (Package.mem_push.mp (List.mem_of_find?_eq_some found)).resolve_left fun old => ?_
    exact Package.identical_none absent dep old identical
  subst self
  have gone := @ends_delete c.files.fileAt c.self digest discard
    ⟨c.files, w'.faults, c.self⟩ rfl ()
  rw [ran'] at gone
  have gone := gone rfl
  have absent' : s.toml.load.identical c.self = none := by
    rw [← absent]
    exact congrArg (List.find? · s.toml.load.all) (funext (Package.identical_congr bare))
  refine ⟨?_, ?_⟩
  · rw [Package.load_push, Package.load_load, Package.retain_push absent']
  · funext q
    by_cases own : c.self.IsOwn q
    · have name : c.self.bare.name = d.bare.name := by rw [bare]
      have target : c.self.target = directory c.self.isFlavor d.name :=
        congrArg (directory c.self.isFlavor) name
      refine (gone.gone q own).trans (fresh c.self.isFlavor q ?_).symm
      rcases own with ⟨asset, rfl⟩ | ⟨file, owned, rfl⟩
      · exact .inl ⟨asset, by rw [target]; rfl⟩
      · exact .inr ⟨file, owned, by rw [target]; rfl⟩
    · rw [gone.other q own, placed.other q own]

/-- Another plugin is listed. -/
private def listing : Pkg :=
  let other : Dependency :=
    { use := text "x/y", name := text "y.yazi", parent := text "x/y.yazi", child := [] }
  { empty with toml := ⟨[other], []⟩ }

private def adds : List Event := [.load, .add (text "a/b") (world "1"), .exit]

private def deletes : List Event := [.load, .delete (text "a/b") false (world ""), .exit]

private def withPlugin : Pkg := (exec (step tagged) listing adds).getD listing

private def without : Pkg := (exec (step tagged) withPlugin deletes).getD listing

theorem add_delete_sample :
    withPlugin.toml ≠ listing.toml ∧ without.toml = listing.toml ∧
      without.files.fileAt = listing.files.fileAt := by
  have parsed : fromStr (text "a/b") =
      .ok { use := text "a/b", name := text "b.yazi", parent := text "a/b.yazi", child := [] } := rfl
  have new : ∀ isFlavor, listing.files.get? (directory isFlavor (text "b.yazi")) = none := by
    decide +kernel
  have added : Run (step tagged) listing adds withPlugin := run_of_exec (by decide +kernel)
  have deleted : Run (step tagged) withPlugin deletes without := run_of_exec (by decide +kernel)
  exact ⟨by decide +kernel, add_delete parsed new added deleted⟩

end Pkg
end Yazi.Cli
