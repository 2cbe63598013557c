import Yazi.Cli.Dependency

/-!
What is left of other files by what is done for a dependency, whichever calls fail.
-/
namespace Yazi.Cli
open Base Shared

/-- The files that are kept are the same, and so is the dependency. -/
def Same (keep : Path → Bool) (c c' : Cx) : Prop :=
  c'.files.only keep = c.files.only keep ∧ c'.self = c.self

namespace Same

variable {keep : Path → Bool}

theorem refl (c : Cx) : Same keep c c := ⟨rfl, rfl⟩

end Same

namespace Io

variable {α : Type} {keep : Path → Bool}

theorem keeps_call {f : Files → Except IoError (α × Files)}
    (same : ∀ files a done, f files = .ok (a, done) → done.only keep = files.only keep) :
    Keeps (Same keep) (call f) := by
  intro s c before
  simp only [outcome, call]
  cases c.faults.head?.join with
  | some n => exact before
  | none =>
    cases made : f c.files with
    | error e => exact before
    | ok r =>
      obtain ⟨a, done⟩ := r
      exact ⟨(same _ _ _ made).trans before.1, before.2⟩

theorem keeps_look (f : Files → Except IoError α) : Keeps (Same keep) (look f) := by
  refine keeps_call fun files a done made => ?_
  cases seen : f files with
  | error e => rw [seen] at made; cases made
  | ok b => rw [seen] at made; cases made; rfl

theorem keeps_change {f : Files → Except IoError Files}
    (same : ∀ files done, f files = .ok done → done.only keep = files.only keep) :
    Keeps (Same keep) (change f) := by
  refine keeps_call fun files a done made => ?_
  cases changed : f files with
  | error e => rw [changed] at made; cases made
  | ok b => rw [changed] at made; cases made; exact same _ _ changed

theorem keeps_writeAll {p : Path} (out : keep p = false) (data : Bytes) :
    Keeps (Same keep) (writeAll p data) := by
  intro s c before
  simp only [outcome, writeAll]
  cases c.faults.head?.join with
  | some n => exact ⟨(Files.only_setData _ out _).trans before.1, before.2⟩
  | none => exact ⟨(Files.only_setData _ out _).trans before.1, before.2⟩

theorem keeps_okOrNotFound {R : Cx → Cx → Prop} [Inhabited α] {x : Io α} (keeps : Keeps R x) :
    Keeps R (okOrNotFound x) := by
  refine Keeps.bind (Keeps.attempt keeps) fun r => ?_
  split
  · exact Keeps.pure _
  · exact Keeps.pure _
  · exact Keeps.throw _

theorem okOrNotFound_spec [Inhabited α] {x : Io α} {P : Cx → Prop} {Q : Except Error α → Cx → Prop}
    (triple : Triple P x Q) : Triple P (okOrNotFound x) fun r c =>
      match r with
      | .ok a => Q (.ok a) c ∨ a = default ∧ Q (.error (.io .notFound)) c
      | .error e => Q (.error e) c := by
  intro c before
  have here := triple c before
  rw [okOrNotFound, outcome_bind, outcome_attempt]
  revert here
  generalize outcome x c = done
  obtain ⟨r, c'⟩ := done
  intro here
  cases r with
  | ok a => exact .inl here
  | error e =>
    cases e with
    | io kind =>
      cases kind with
      | notFound => exact .inr ⟨rfl, here⟩
      | other => exact here
    | _ => exact here

theorem keeps_maybeExists {R : Cx → Cx → Prop} {x : Io Node} (keeps : Keeps R x) :
    Keeps R (maybeExists x) := by
  refine Keeps.bind (Keeps.attempt keeps) fun r => ?_
  cases r <;> exact Keeps.pure _

theorem keeps_ofExcept {R : Cx → Cx → Prop} (r : Except Error α) : Keeps R (ofExcept r) := by
  cases r with
  | ok a => exact Keeps.pure a
  | error e => exact Keeps.throw e

theorem keeps_removeFile {p : Path} (out : keep p = false) :
    Keeps (Same keep) (change (·.removeFile p)) :=
  keeps_change fun _ _ => Files.only_removeFile out

theorem keeps_createDirAll (p : Path) : Keeps (Same keep) (createDirAll p) :=
  Keeps.forM fun _ _ => keeps_change fun _ _ => Files.only_makeDir

theorem keeps_subdirs (dir : Path) (names : List Bytes) : Keeps (Same keep) (subdirs dir names) := by
  induction names with
  | nil => exact Keeps.pure _
  | cons name names ih =>
    refine Keeps.bind (Keeps.attempt (keeps_look _)) fun node => Keeps.bind ih fun rest => ?_
    split <;> exact Keeps.pure _

theorem keeps_removeDirClean (depth : Nat) (dir : Path) :
    Keeps (Same keep) (removeDirClean depth dir) := by
  induction depth generalizing dir with
  | zero => exact Keeps.pure _
  | succ depth ih =>
    refine Keeps.bind (Keeps.attempt (keeps_look _)) fun node => ?_
    split
    · refine Keeps.bind (Keeps.attempt (keeps_look _)) fun names => ?_
      split
      · refine Keeps.bind (keeps_subdirs _ _) fun dirs => ?_
        refine Keeps.bind (Keeps.forM fun name _ => ih _) fun _ => ?_
        refine Keeps.bind (Keeps.attempt ?_) fun _ => Keeps.pure _
        exact keeps_change fun _ _ => Files.only_removeDir
      · exact Keeps.pure _
    · exact Keeps.pure _

theorem keeps_clean (dir : Path) : Keeps (Same keep) (clean dir) :=
  Keeps.bind (fun _ _ before => before) fun _ => keeps_removeDirClean _ _

theorem keeps_copyAndSeal (repo : Files) (src : Path) {dst : Path} (out : keep dst = false) :
    Keeps (Same keep) (copyAndSeal repo src dst) := by
  refine Keeps.bind (keeps_look _) fun b => ?_
  refine Keeps.bind (keeps_okOrNotFound (keeps_removeFile out)) fun _ => ?_
  refine Keeps.bind (keeps_change fun _ _ => Files.only_createNew out) fun _ => ?_
  refine Keeps.bind (keeps_writeAll out b) fun _ => ?_
  exact Keeps.bind (keeps_look _) fun _ => keeps_look _

end Io

namespace Dependency

/-- Where plugins or flavors have their own files. -/
def owns (isFlavor : Bool) (file : Bytes) : Bool :=
  if isFlavor then flavorFiles.contains file else fixed.contains file || isSource file

/-- None of the own files of the dependency is kept. -/
structure Spares (d : Dependency) (keep : Path → Bool) : Prop where
  source : ∀ file, owns d.isFlavor file = true → keep (d.target ++ [file]) = false
  asset : ∀ name, keep (d.target ++ [assets, name]) = false

theorem mem_sorted {names : List Bytes} {name : Bytes} : name ∈ sorted names ↔ name ∈ names :=
  (List.perm_insertionSort ..).mem_iff

variable {keep : Path → Bool} {d : Dependency}

theorem sources_owns (d : Dependency) :
    ∀ s, Triple (Same keep s) (sources d) fun r c =>
      Same keep s c ∧ ∀ files, r = .ok files → ∀ file ∈ files, owns d.isFlavor file = true := by
  intro s
  rw [sources]
  refine Triple.ite (fun flavor => ?_) fun plugin => ?_
  · refine Triple.pure fun c before => ⟨before, fun files same file member => ?_⟩
    cases same
    rw [owns, if_pos flavor, List.contains_iff_mem]
    exact member
  · refine Triple.bind (Io.keeps_look _ s) (fun names => ?_) fun e c before => ⟨before, of_error⟩
    refine Triple.pure fun c before => ⟨before, fun files same file member => ?_⟩
    cases same
    rw [owns, if_neg plugin, Bool.or_eq_true, List.contains_iff_mem]
    rcases List.mem_append.mp (mem_sorted.mp member) with always | other
    · exact .inl always
    · exact .inr (List.mem_filter.mp other).2

theorem keeps_clearAssets (spares : d.Spares keep) : Keeps (Same keep) (clearAssets d) := by
  refine Keeps.bind (Keeps.attempt (Io.keeps_look _)) fun r => ?_
  split
  · exact Keeps.forM fun name _ => Io.keeps_removeFile (spares.asset name)
  · exact Keeps.pure _
  · exact Keeps.throw _

theorem keeps_deleteAssets (spares : d.Spares keep) : Keeps (Same keep) (deleteAssets d) :=
  Keeps.bind (keeps_clearAssets spares) fun _ =>
    Keeps.bind (Keeps.attempt (Io.keeps_clean _)) fun _ => Keeps.pure _

theorem keeps_deleteSources (spares : d.Spares keep) : Keeps (Same keep) (deleteSources d) := by
  intro s
  refine Triple.bind (sources_owns d s) (fun files => ?_) fun e c before => before.1
  intro c before
  obtain ⟨same, owned⟩ := before
  refine Keeps.bind (Keeps.forM fun file member => ?_) (fun _ => ?_) s c same
  · exact Io.keeps_okOrNotFound (Io.keeps_removeFile (spares.source file (owned _ rfl _ member)))
  · refine Keeps.bind (Keeps.attempt (Io.keeps_okOrNotFound ?_)) fun _ => Keeps.pure _
    exact Io.keeps_change fun _ _ => Files.only_removeDir

/-! ### What is hashed -/

/-- What the hash of a directory is taken of. -/
def content (files : Files) (isFlavor : Bool) (name : Bytes) : Bytes :=
  let target := directory isFlavor name
  let sources :=
    if isFlavor then flavorFiles else sorted (fixed ++ (files.names target).filter isSource)
  (sources.map fun file => file ++ sourceMark ++ files.data (target ++ [file])).flatten ++
    hashAssets ((files.names (target ++ [assets])).map fun name =>
      (name, files.data (target ++ [assets, name])))

/-- Nothing changes. -/
def Reads (files : Files) (d : Dependency) (c : Cx) : Prop := c.files = files ∧ c.self = d

variable {files : Files} {self : Dependency} (digest : Bytes → Bytes)

theorem reads_look {α : Type} (f : Files → Except IoError α) :
    Triple (Reads files self) (Io.look f) fun r c => Reads files self c ∧
      (∀ a, r = .ok a → f files = .ok a) ∧
      (r = .error (.io .notFound) → f files = .error .notFound) := by
  rintro c ⟨same, here⟩
  subst same
  simp only [outcome, Io.look, Io.call]
  cases c.faults.head?.join with
  | some n =>
    refine ⟨⟨rfl, here⟩, fun a same => ?_, fun same => ?_⟩
    · cases same
    · cases same
  | none =>
    cases done : f c.files with
    | error e =>
      refine ⟨⟨rfl, here⟩, fun a same => ?_, fun same => ?_⟩
      · cases same
      · cases same
        rfl
    | ok a =>
      refine ⟨⟨rfl, here⟩, fun b same => ?_, fun same => ?_⟩
      · cases same
        rfl
      · cases same

theorem reads_sources (d : Dependency) :
    Triple (Reads files self) (sources d) fun r c => Reads files self c ∧
      ∀ names, r = .ok names → names =
        if d.isFlavor then flavorFiles
        else sorted (fixed ++ (files.entries.filterMap (Files.below d.target)).filter isSource) := by
  rw [sources]
  refine Triple.ite (fun flavor => ?_) fun plugin => ?_
  · refine Triple.pure fun c reads => ⟨reads, fun names same => ?_⟩
    cases same
    exact (if_pos flavor).symm
  · refine Triple.bind (reads_look _) (fun names => ?_) fun e c reads => ⟨reads.1, of_error⟩
    refine Triple.pure fun c reads => ⟨reads.1, fun all same => ?_⟩
    cases same
    rw [if_neg plugin, Files.readDir_ok (reads.2.1 names rfl)]

theorem reads_readSource (d : Dependency) (file : Bytes) :
    Triple (Reads files self) (readSource d file) fun r c => Reads files self c ∧
      ∀ b, r = .ok b → b = file ++ sourceMark ++ files.data (d.target ++ [file]) ∧
        files.get? (d.target ++ [file]) ≠ some .dir := by
  refine Triple.bind (Io.okOrNotFound_spec (reads_look _)) (fun b => ?_) fun e c known =>
    ⟨known.1, of_error⟩
  refine Triple.pure fun c known => ?_
  rcases known with ⟨reads, done, -⟩ | ⟨rfl, reads, -, absent⟩
  · have found := Files.read_ok (done b rfl)
    refine ⟨reads, fun b' same => ?_⟩
    cases same
    rw [Files.data_of_file found, found]
    exact ⟨rfl, by simp⟩
  · have none := Files.read_notFound (absent rfl)
    refine ⟨reads, fun b' same => ?_⟩
    cases same
    rw [Files.data_of_none none, none]
    exact ⟨rfl, by simp⟩

theorem reads_readAsset (d : Dependency) (name : Bytes) :
    Triple (Reads files self) (readAsset d name) fun r c => Reads files self c ∧
      ∀ b, r = .ok b → b = (name, files.data (d.target ++ [assets, name])) ∧
        files.get? (d.target ++ [assets, name]) ≠ some .dir := by
  refine Triple.ite (fun _ => ?_) fun _ => Triple.throw fun c reads => ⟨reads, of_error⟩
  refine Triple.bind (reads_look _) (fun data => ?_) fun e c known => ⟨known.1, of_error⟩
  refine Triple.pure fun c known => ⟨known.1, fun b same => ?_⟩
  cases same
  have found := Files.read_ok (known.2.1 data rfl)
  rw [Files.data_of_file found, found]
  exact ⟨rfl, by simp⟩

/-- Nothing that is hashed is a directory, so what is listed are the files. -/
theorem forall₂_map {α β : Type} {f : α → β} {bad : α → Prop} {l : List α} {bs : List β}
    (all : List.Forall₂ (fun a b => b = f a ∧ ¬bad a) l bs) : bs = l.map f ∧ ∀ a ∈ l, ¬bad a := by
  induction all with
  | nil => exact ⟨rfl, fun a none => absurd none List.not_mem_nil⟩
  | cons here _ ih =>
    exact ⟨congrArg₂ _ here.1 ih.1, List.forall_mem_cons.mpr ⟨here.2, ih.2⟩⟩

theorem reads_readAssets (d : Dependency) :
    Triple (Reads files self) (readAssets d) fun r c => Reads files self c ∧
      ∀ found, r = .ok found → found = (files.names (d.target ++ [assets])).map fun name =>
        (name, files.data (d.target ++ [assets, name])) := by
  refine Triple.bindAttempt (reads_look _) fun r => ?_
  split
  · next names =>
    refine Triple.of_and fun listed => ?_
    have listed := Files.readDir_ok (listed.1 names rfl)
    refine Triple.mono (Triple.mapM fun name _ => reads_readAsset d name) (fun _ reads => reads) ?_
    rintro r c ⟨reads, all⟩
    refine ⟨reads, fun found same => ?_⟩
    obtain ⟨read, plain⟩ := forall₂_map (all found same)
    have files' := Files.filter_names files (p := d.target ++ [assets]) (q := fun _ => true)
      fun name member _ => ?_
    · rw [List.filter_true, List.filter_true] at files'
      rw [read, listed, files']
    · rw [List.append_assoc]
      exact plain name (listed ▸ member)
  · refine Triple.pure fun c known => ⟨known.1, fun found same => ?_⟩
    cases same
    rw [Files.names_of_none (Files.readDir_notFound (known.2.2 rfl))]
    rfl
  · exact Triple.throw fun c known => ⟨known.1, of_error⟩

theorem reads_hashed (d : Dependency) :
    Triple (Reads files self) (hashed digest d) fun r c => Reads files self c ∧
      ∀ hash, r = .ok hash → hash = digest (content files d.isFlavor d.name) := by
  refine Triple.bind (reads_sources d) (fun names => ?_) fun e c known => ⟨known.1, of_error⟩
  refine Triple.of_and fun listed => ?_
  have listed := listed names rfl
  refine Triple.bind (Triple.mapM fun file _ => reads_readSource d file) (fun h => ?_)
    fun e c known => ⟨known.1, of_error⟩
  refine Triple.of_and fun all => ?_
  obtain ⟨read, plain⟩ := forall₂_map (all h rfl)
  refine Triple.bind (reads_readAssets d) (fun found => ?_) fun e c known => ⟨known.1, of_error⟩
  refine Triple.pure fun c known => ⟨known.1, fun hash same => ?_⟩
  cases same
  have names' : names = if d.isFlavor then flavorFiles
      else sorted (fixed ++ (files.names d.target).filter isSource) := by
    cases flavor : d.isFlavor with
    | true =>
      rw [flavor] at listed
      exact listed
    | false =>
      rw [flavor, if_neg Bool.false_ne_true] at listed
      rw [if_neg Bool.false_ne_true, listed]
      refine congrArg (fun more => sorted (fixed ++ more)) (Files.filter_names files ?_)
      intro name member source
      refine plain name ?_
      rw [listed, mem_sorted]
      exact List.mem_append_right _ (List.mem_filter.mpr ⟨member, source⟩)
  rw [known.2 found rfl, read, names']
  rfl

theorem keeps_hashed (d : Dependency) : Keeps (Same keep) (hashed digest d) := by
  intro s c before
  obtain ⟨⟨files, self⟩, -⟩ := reads_hashed digest d c ⟨rfl, rfl⟩
  exact ⟨(congrArg (Files.only keep) files).trans before.1, self.trans before.2⟩

theorem content_congr {files files' : Files}
    (same : (files'.only fun _ => true) = files.only fun _ => true) (isFlavor : Bool) (name : Bytes) :
    content files' isFlavor name = content files isFlavor name := by
  have data : files'.data = files.data := by
    funext p
    rw [Files.data, Files.data, same]
  have names : files'.names = files.names := by
    funext p
    rw [Files.names, Files.names, same]
  rw [content, content, data, names]

/-! ### Deploying and deleting -/

theorem keeps_guard (d : Dependency) (exist discard : Bool) :
    Keeps (Same keep) (guard digest d exist discard) := by
  refine Keeps.ite (Keeps.bind (keeps_hashed digest d) fun hash => ?_) (Keeps.pure _)
  exact Keeps.ite (Keeps.throw _) (Keeps.pure _)

theorem keeps_deployAssets (spares : d.Spares keep) (repo : Files) (src : Path) :
    Keeps (Same keep) (deployAssets repo src (d.target ++ [assets])) := by
  refine Keeps.bind (Keeps.attempt (Io.keeps_look _)) fun r => ?_
  split
  · refine Keeps.bind (Io.keeps_createDirAll _) fun _ => Keeps.forM fun name _ => ?_
    refine Io.keeps_copyAndSeal repo _ ?_
    rw [List.append_assoc]
    exact spares.asset name
  · exact Keeps.pure _
  · exact Keeps.throw _

theorem keeps_deploySources (spares : d.Spares keep) (repo : Files) (src : Path)
    {files : List Bytes} (owned : ∀ file ∈ files, owns d.isFlavor file = true) :
    Keeps (Same keep) (deploySources repo src d.target files) :=
  Keeps.forM fun file member => Io.keeps_copyAndSeal repo _ (spares.source file (owned file member))

/-- What a dependency is, besides its state. -/
def bare (d : Dependency) : Dependency := { d with rev := [], hash := [], isFlavor := false }

/-- What may have become of the files of a dependency and of the dependency, from `files`: others
are kept, a hash is the one of what is there, and what is there had the hash, if it is checked. -/
structure Done (files : Files) (d : Dependency) (discard : Bool) (c : Cx) : Prop where
  kept : ∀ keep, d.Spares keep → c.files.only keep = files.only keep
  self : c.self.bare = d.bare
  flavor : c.self.isFlavor = d.isFlavor
  hash : c.self.hash = d.hash ∨ c.self.hash = digest (content c.files d.isFlavor d.name)
  checked : discard = false → files.lookup d.target = .error .notFound ∨
    d.hash = digest (content files d.isFlavor d.name) ∨ ∀ keep, c.files.only keep = files.only keep

theorem reads_maybeExists (p : Path) :
    Triple (Reads files self) (Io.maybeExists (Io.look (·.lookup p))) fun r c =>
      Reads files self c ∧ (r = .ok false → files.lookup p = .error .notFound) := by
  refine Triple.bindAttempt (reads_look _) fun r => ?_
  split
  · exact Triple.pure fun c known => ⟨known.1, fun same => by cases same⟩
  · next e =>
    refine Triple.pure fun c known => ⟨known.1, fun same => ?_⟩
    have absent : e = .io .notFound := by simpa using same
    exact known.2.2 (congrArg Except.error absent)

theorem reads_guard (d : Dependency) (exist discard : Bool) :
    Triple (Reads files self) (guard digest d exist discard) fun r c => Reads files self c ∧
      (r = .ok () → exist = true → discard = false →
        d.hash = digest (content files d.isFlavor d.name)) := by
  refine Triple.ite (fun _ => ?_) fun skip => ?_
  · refine Triple.bind (reads_hashed digest d) (fun hash => ?_) fun e c known => ⟨known.1, fun same => by cases same⟩
    refine Triple.ite (fun _ => Triple.throw fun c known => ⟨known.1, fun same => by cases same⟩) fun same => ?_
    refine Triple.pure fun c known => ⟨known.1, fun _ _ _ => ?_⟩
    rw [not_ne_iff.mp same]
    exact known.2 hash rfl
  · refine Triple.pure fun c reads => ⟨reads, fun _ exist discard => ?_⟩
    rw [exist, discard] at skip
    exact absurd rfl skip

/-- Something that is checked first: either nothing happens, or what is there had the hash. -/
theorem checked_of_guard (d : Dependency) {discard : Bool} {rest : Bool → Io Unit} :
    Triple (Reads files self) (do
      let exist ← Io.maybeExists (Io.look (·.lookup d.target))
      guard digest d exist discard
      rest exist) fun _ c => discard = false → files.lookup d.target = .error .notFound ∨
        d.hash = digest (content files d.isFlavor d.name) ∨
          ∀ keep, c.files.only keep = files.only keep := by
  have still {c : Cx} (reads : Reads files self c) (keep : Path → Bool) :
      c.files.only keep = files.only keep := congrArg (Files.only keep) reads.1
  refine Triple.bind (reads_maybeExists d.target) (fun exist => ?_) fun e c known _ =>
    .inr (.inr (still known.1))
  refine Triple.of_and fun absent => ?_
  refine Triple.bind (reads_guard digest d exist discard) (fun _ => ?_) fun e c known _ =>
    .inr (.inr (still known.1))
  refine Triple.of_and fun passed => ?_
  intro c _ checks
  cases exist with
  | false => exact .inl (absent rfl)
  | true => exact .inr (.inl (passed rfl rfl checks))

/-- The files that are kept are the same, and the dependency is the same, besides its state. -/
def Kept (keep : Path → Bool) (c c' : Cx) : Prop :=
  c'.files.only keep = c.files.only keep ∧ c'.self.bare = c.self.bare

theorem kept_of_same {α : Type} {x : Io α} (keeps : Keeps (Same keep) x) : Keeps (Kept keep) x :=
  keeps.mono (fun _ _ same => ⟨same.1, congrArg bare same.2⟩) Same.refl
    fun _ _ _ first second => ⟨second.1.trans first.1, second.2.trans first.2⟩

theorem reads_rehash :
    Triple (Reads files self) (rehash digest) fun _ c => c.files = files ∧
      (c.self = self ∨
        c.self = { self with hash := digest (content files self.isFlavor self.name) }) := by
  have start : Triple (Reads files self) Io.self fun r c => Reads files self c ∧ r = .ok self := by
    rintro c ⟨same, here⟩
    exact ⟨⟨same, here⟩, congrArg Except.ok here⟩
  refine Triple.bind start (fun d => ?_) fun e c known => ⟨known.1.1, .inl known.1.2⟩
  refine Triple.of_and fun same => ?_
  obtain rfl := Except.ok.inj same
  refine Triple.bind (reads_hashed digest d) (fun hash => ?_) fun e c known =>
    ⟨known.1.1, .inl known.1.2⟩
  rintro c ⟨⟨same, here⟩, hashed⟩
  refine ⟨same, .inr ?_⟩
  rw [← hashed hash rfl, ← here]
  rfl

theorem kept_rehash : Keeps (Kept keep) (rehash digest) := by
  intro s c before
  obtain ⟨files, self | self⟩ := reads_rehash digest c ⟨rfl, rfl⟩
  · exact ⟨(congrArg (Files.only keep) files).trans before.1, (congrArg bare self).trans before.2⟩
  · exact ⟨(congrArg (Files.only keep) files).trans before.1, (congrArg bare self).trans before.2⟩

theorem kept_settle (spares : d.Spares keep) (exist failed : Bool) :
    Keeps (Kept keep) (settle digest exist d failed) := by
  refine Keeps.ite ?_ (Keeps.ite (kept_rehash digest) (Keeps.pure _))
  refine kept_of_same (Keeps.bind (keeps_deleteAssets spares) fun _ => ?_)
  exact Keeps.bind (keeps_deleteSources spares) fun _ => Keeps.pure _

theorem kept_place (spares : d.Spares keep) (repo : Files) (src : Path) {files : List Bytes}
    (owned : ∀ file ∈ files, owns d.isFlavor file = true) (discard : Bool) :
    Keeps (Kept keep) (place digest repo src files discard d) := by
  refine Keeps.bind (kept_of_same (Io.keeps_maybeExists (Io.keeps_look _))) fun exist => ?_
  refine Keeps.bind (kept_of_same (keeps_guard digest d exist discard)) fun _ => ?_
  refine Keeps.bind (kept_of_same (Io.keeps_createDirAll _)) fun _ => ?_
  refine Keeps.bind (kept_of_same (keeps_deleteAssets spares)) fun _ => ?_
  refine Keeps.bind (kept_of_same (Keeps.attempt (keeps_deployAssets spares repo _))) fun res1 => ?_
  refine Keeps.bind (kept_of_same (Keeps.attempt (keeps_deploySources spares repo src owned)))
    fun res2 => ?_
  refine Keeps.bind (kept_settle digest spares exist _) fun _ => ?_
  refine Keeps.bind (kept_of_same (Keeps.attempt (Io.keeps_clean _))) fun _ => ?_
  refine Keeps.bind (Io.keeps_ofExcept _) fun _ => Keeps.bind (Io.keeps_ofExcept _) fun _ => ?_
  exact kept_rehash digest

/-- The hash is the one before, or the one of what is there. -/
def Hashed (d : Dependency) (c : Cx) : Prop :=
  c.self.isFlavor = d.isFlavor ∧ c.self.name = d.name ∧
    (c.self.hash = d.hash ∨ c.self.hash = digest (content c.files d.isFlavor d.name))

variable {digest}

theorem Hashed.of_self {c : Cx} (self : c.self = d) : Hashed digest d c :=
  ⟨congrArg isFlavor self, congrArg name self, .inl (congrArg hash self)⟩

theorem hashed_of_same {α : Type} {x : Io α} (keeps : Keeps (Same fun _ => true) x) :
    Triple (Hashed digest d) x fun _ => Hashed digest d := by
  rintro c ⟨flavor, name, known⟩
  obtain ⟨files, self⟩ := keeps.outcome c (Same.refl c)
  refine ⟨(congrArg isFlavor self).trans flavor, (congrArg Dependency.name self).trans name, ?_⟩
  rw [self, content_congr files]
  exact known

theorem hashed_rehash : Triple (Hashed digest d) (rehash digest) fun _ => Hashed digest d := by
  rintro c ⟨flavor, name, known⟩
  obtain ⟨files, self | self⟩ := reads_rehash digest c ⟨rfl, rfl⟩
  · exact ⟨(congrArg isFlavor self).trans flavor, (congrArg Dependency.name self).trans name, by
      rw [self, files]
      exact known⟩
  · refine ⟨(congrArg isFlavor self).trans flavor, (congrArg Dependency.name self).trans name, .inr ?_⟩
    rw [self, files, ← flavor, ← name]

theorem self_of_same {α : Type} {x : Io α} {keep : Path → Bool} (keeps : Keeps (Same keep) x) :
    Triple (fun c => c.self = d) x fun _ c => c.self = d :=
  fun c self => (keeps.outcome c (Same.refl c)).2.trans self

theorem spares_none (d : Dependency) : d.Spares fun _ => false := ⟨fun _ _ => rfl, fun _ => rfl⟩

theorem hashed_settle (exist failed : Bool) :
    Triple (fun c => c.self = d) (settle digest exist d failed) fun _ => Hashed digest d := by
  refine Triple.ite (fun _ => ?_) fun _ => Triple.ite (fun _ => ?_) fun _ => ?_
  · have keeps := Keeps.bind (keeps_deleteAssets (spares_none d)) fun _ =>
      Keeps.bind (keeps_deleteSources (spares_none d)) fun _ => Keeps.pure PUnit.unit
    exact (self_of_same keeps).mono (fun _ self => self) fun _ _ => Hashed.of_self
  · exact hashed_rehash.mono (fun _ => Hashed.of_self) fun _ _ known => known
  · exact Triple.pure fun _ => Hashed.of_self

theorem hashed_place (repo : Files) (src : Path) {files : List Bytes}
    (owned : ∀ file ∈ files, owns d.isFlavor file = true) (discard : Bool) :
    Triple (fun c => c.self = d) (place digest repo src files discard d) fun _ =>
      Hashed digest d := by
  have first {α β : Type} {x : Io α} {f : α → Io β} (keeps : Keeps (Same fun _ => false) x)
      (next : ∀ a, Triple (fun c => c.self = d) (f a) fun _ => Hashed digest d) :
      Triple (fun c => c.self = d) (x >>= f) fun _ => Hashed digest d :=
    Triple.bind (self_of_same keeps) next fun _ _ => Hashed.of_self
  have spares := spares_none d
  refine first (Io.keeps_maybeExists (Io.keeps_look _)) fun exist => ?_
  refine first (keeps_guard digest d exist discard) fun _ => ?_
  refine first (Io.keeps_createDirAll _) fun _ => ?_
  refine first (keeps_deleteAssets spares) fun _ => ?_
  refine first (Keeps.attempt (keeps_deployAssets spares repo _)) fun res1 => ?_
  refine first (Keeps.attempt (keeps_deploySources spares repo src owned)) fun res2 => ?_
  have later {α β : Type} {x : Io α} {f : α → Io β} (keeps : Keeps (Same fun _ => true) x)
      (next : ∀ a, Triple (Hashed digest d) (f a) fun _ => Hashed digest d) :
      Triple (Hashed digest d) (x >>= f) fun _ => Hashed digest d :=
    Triple.bind (hashed_of_same keeps) next fun _ _ known => known
  refine Triple.bind (hashed_settle exist _) (fun _ => ?_) fun _ _ known => known
  refine later (Keeps.attempt (Io.keeps_clean _)) fun _ => ?_
  exact later (Io.keeps_ofExcept _) fun _ => later (Io.keeps_ofExcept _) fun _ => hashed_rehash

theorem Done.still {discard : Bool} {c : Cx} (reads : Reads files d c) :
    Done digest files d discard c where
  kept keep _ := congrArg (Files.only keep) reads.1
  self := congrArg bare reads.2
  flavor := congrArg isFlavor reads.2
  hash := .inl (congrArg Dependency.hash reads.2)
  checked _ := .inr (.inr fun keep => congrArg (Files.only keep) reads.1)

theorem done_place (repo : Files) (src : Path) {owned : List Bytes}
    (own : ∀ file ∈ owned, owns d.isFlavor file = true) (discard : Bool) :
    Triple (Reads files d) (place digest repo src owned discard d) fun _ c =>
      Done digest files d discard c := by
  rintro c ⟨rfl, self⟩
  have hashed : Hashed digest d (outcome (place digest repo src owned discard d) c).2 :=
    hashed_place repo src own discard c self
  obtain ⟨flavor, -, hash⟩ := hashed
  refine ⟨fun keep spares => ?_, ?_, flavor, hash, ?_⟩
  · exact ((kept_place digest spares repo src own discard).outcome c ⟨rfl, rfl⟩).1
  · have kept := (kept_place digest (spares_none d) repo src own discard).outcome c ⟨rfl, rfl⟩
    exact kept.2.trans (congrArg bare self)
  · exact checked_of_guard digest d c ⟨rfl, self⟩

theorem reads_pluginFiles {readDir : Io (List Bytes)}
    (reads : Triple (Reads files d) readDir fun _ => Reads files d) :
    Triple (Reads files d) (pluginFiles readDir) fun r c => Reads files d c ∧
      ∀ names, r = .ok names → ∀ file ∈ names, owns false file = true := by
  refine Triple.bind reads (fun names => ?_) fun e c known => ⟨known, of_error⟩
  refine Triple.pure fun c known => ⟨known, fun all same file member => ?_⟩
  cases same
  rw [owns, if_neg Bool.false_ne_true, Bool.or_eq_true, List.contains_iff_mem]
  rcases List.mem_append.mp (mem_sorted.mp member) with always | other
  · exact .inl always
  · exact .inr (List.mem_filter.mp other).2

theorem reads_self : Triple (Reads files d) Io.self fun r c => Reads files d c ∧ r = .ok d := by
  rintro c ⟨same, here⟩
  exact ⟨⟨same, here⟩, congrArg Except.ok here⟩

theorem done_deploy (repo : Files) (discard : Bool) :
    Triple (Reads files d) (deploy digest repo discard) fun _ c =>
      ∃ isFlavor, Done digest files { d with isFlavor } discard c := by
  have look {α : Type} (d : Dependency) (x : Except IoError α) :
      Triple (Reads files d) (Io.look fun _ => x) fun _ => Reads files d :=
    (reads_look fun _ => x).mono (fun _ reads => reads) fun _ _ known => known.1
  refine Triple.bind reads_self (fun self => ?_) fun _ c known => ⟨d.isFlavor, .still known.1⟩
  refine Triple.of_and fun same => ?_
  obtain rfl := (Except.ok.inj same).symm
  refine Triple.bind (Q := fun _ => Reads files d) ?_ (fun isFlavor => ?_) fun _ c reads =>
    ⟨d.isFlavor, .still reads⟩
  · refine Triple.bindAttempt (look d _) fun r => ?_
    split <;> exact Triple.pure fun _ reads => reads
  refine Triple.mono (Q := fun _ => Done digest files { d with isFlavor } discard) ?_
    (fun _ reads => reads) fun _ _ done => ⟨isFlavor, done⟩
  refine Triple.bind (Q := fun _ => Reads files { d with isFlavor }) ?_ (fun _ => ?_) fun _ _ =>
    Done.still
  · rintro c ⟨same, here⟩
    exact ⟨same, congrArg (fun d : Dependency => { d with isFlavor }) here⟩
  refine Triple.bind (Q := fun r c => Reads files { d with isFlavor } c ∧
    ∀ names, r = .ok names → ∀ file ∈ names, owns isFlavor file = true) ?_ (fun names => ?_)
    fun _ _ known => Done.still known.1
  · refine Triple.ite (fun flavor => ?_) fun plugin => ?_
    · refine Triple.pure fun c known => ⟨known, fun names same file member => ?_⟩
      cases same
      rw [owns, if_pos flavor, List.contains_iff_mem]
      exact member
    · rw [Bool.eq_false_iff.mpr plugin]
      exact reads_pluginFiles (look _ _)
  refine Triple.of_and fun own => ?_
  refine Triple.bind reads_self (fun self => ?_) fun _ _ known => Done.still known.1
  refine Triple.of_and fun same => ?_
  obtain rfl := (Except.ok.inj same).symm
  exact done_place repo _ (own names rfl) discard

theorem Done.modifyRev {discard : Bool} {c : Cx} (done : Done digest files d discard c) (rev : Bytes) :
    Done digest files d discard { c with self := { c.self with rev } } :=
  ⟨done.kept, done.self, done.flavor, done.hash, done.checked⟩

/-- What is done for a dependency that is added, installed or upgraded. -/
inductive Fetch where
  | add | install | upgrade
  deriving DecidableEq

def fetch (digest : Bytes → Bytes) (g : Git) (discard : Bool) : Fetch → Io Unit
  | .add => add digest g discard
  | .install => install digest g discard
  | .upgrade => upgrade digest g discard

theorem done_fetch (g : Git) (discard : Bool) (how : Fetch) :
    Triple (Reads files d) (fetch digest g discard how) fun _ c =>
      ∃ isFlavor, Done digest files { d with isFlavor } discard c := by
  have still {c : Cx} (reads : Reads files d c) :
      ∃ isFlavor, Done digest files { d with isFlavor } discard c := ⟨d.isFlavor, .still reads⟩
  have git {α : Type} {P : Cx → Prop} (done : Option α) :
      Triple P (Dependency.git done) fun _ => P := by
    cases done with
    | none => exact Triple.throw fun _ known => known
    | some a => exact Triple.pure fun _ known => known
  have revised (repo : Files) : Triple (Reads files d) (do
      deploy digest repo discard
      let rev ← Dependency.git g.revision
      Io.modifySelf fun d => { d with rev }) fun _ c =>
        ∃ isFlavor, Done digest files { d with isFlavor } discard c := by
    refine Triple.bind (done_deploy repo discard) (fun _ => ?_) fun _ _ known => known
    refine Triple.bind (git g.revision) (fun rev => ?_) fun _ _ known => known
    rintro c ⟨isFlavor, done⟩
    exact ⟨isFlavor, done.modifyRev rev⟩
  have adding : Triple (Reads files d) (add digest g discard) fun _ c =>
      ∃ isFlavor, Done digest files { d with isFlavor } discard c :=
    Triple.bind (git g.pulled) revised fun _ _ => still
  cases how with
  | add => exact adding
  | install =>
    refine Triple.bind (git g.fetched) (fun repo => ?_) fun _ _ => still
    refine Triple.bind reads_self (fun self => ?_) fun _ _ known => still known.1
    refine Triple.mono ?_ (fun _ known => known.1) fun _ _ known => known
    refine Triple.bind (Q := fun _ => Reads files d) ?_ (fun repo => ?_) fun _ _ => still
    · exact Triple.ite (fun _ => git _) fun _ => Triple.pure fun _ known => known
    · refine Triple.bind (done_deploy repo discard) (fun _ => ?_) fun _ _ known => known
      refine Triple.ite (fun _ => ?_) fun _ => Triple.pure fun _ known => known
      refine Triple.bind (git g.revision) (fun rev => ?_) fun _ _ known => known
      rintro c ⟨isFlavor, done⟩
      exact ⟨isFlavor, done.modifyRev rev⟩
  | upgrade =>
    refine Triple.bind reads_self (fun self => ?_) fun _ _ known => still known.1
    refine Triple.mono ?_ (fun _ known => known.1) fun _ _ known => known
    exact Triple.ite (fun _ => Triple.pure fun _ => still) fun _ => adding

theorem done_delete (discard : Bool) :
    Triple (Reads files d) (delete digest d discard) fun _ c => Done digest files d discard c := by
  have keeps {keep : Path → Bool} (spares : d.Spares keep) :
      Keeps (Same keep) (delete digest d discard) := by
    refine Keeps.bind (Io.keeps_maybeExists (Io.keeps_look _)) fun exist => ?_
    refine Keeps.bind (keeps_guard digest d exist discard) fun _ => ?_
    refine Keeps.ite (Keeps.bind (keeps_deleteAssets spares) fun _ => ?_) (Keeps.pure _)
    exact Keeps.bind (keeps_deleteSources spares) fun _ => Keeps.pure _
  rintro c ⟨rfl, rfl⟩
  have self := ((keeps (spares_none c.self)).outcome c (Same.refl c)).2
  refine ⟨fun keep spares => ((keeps spares).outcome c (Same.refl c)).1, ?_, ?_, ?_, ?_⟩
  · exact congrArg bare self
  · exact congrArg isFlavor self
  · exact .inl (congrArg hash self)
  · exact checked_of_guard digest c.self c ⟨rfl, rfl⟩

end Dependency
end Yazi.Cli
