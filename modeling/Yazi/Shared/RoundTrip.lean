import Yazi.Shared.Bounded
import Yazi.Shared.Header
import Yazi.Shared.WireData

/-!
A url is read back from its text, whichever way it was written, unless the text of a view
hides the path of its source.
-/
namespace Yazi.Shared

open Base (Yields)

/-! ### Data of views -/

section data
variable {inventory : Inventory}

mutual

theorem WireOf.plain_iff : (w : Wire) → (w.Plain ↔ w.Urls UrlOf.Plain)
  | .list values => WiresOf.plain_iff values
  | .dict entries => DictOf.plain_iff entries
  | .url _ => Iff.rfl
  | .nil | .boolean _ | .integer _ | .number _ | .string _ | .id _ | .bytes _ => Iff.rfl

theorem WiresOf.plain_iff : (ws : Wires) → (ws.Plain ↔ ws.Urls UrlOf.Plain)
  | .nil => Iff.rfl
  | .cons value rest => and_congr (WireOf.plain_iff value) (WiresOf.plain_iff rest)

theorem DictOf.plain_iff : (es : Dict) → (es.Plain ↔ es.Urls UrlOf.Plain)
  | .nil => Iff.rfl
  | .cons _ value rest => and_congr (WireOf.plain_iff value) (DictOf.plain_iff rest)

end

mutual

theorem WireOf.WellFormed.sound : {w : Wire} → w.WellFormed inventory → w.Sound
  | .list _, wellFormed => WiresOf.WellFormed.sound wellFormed
  | .dict _, wellFormed => ⟨DictOf.WellFormed.sound wellFormed.1, wellFormed.2⟩
  | .string _, valid => valid
  | .nil, _ | .boolean _, _ | .integer _, _ | .number _, _ | .url _, _ | .id _, _
  | .bytes _, _ => trivial

theorem WiresOf.WellFormed.sound : {ws : Wires} → ws.WellFormed inventory → ws.Sound
  | .nil, _ => trivial
  | .cons _ _, wellFormed =>
    ⟨WireOf.WellFormed.sound wellFormed.1, WiresOf.WellFormed.sound wellFormed.2⟩

theorem DictOf.WellFormed.sound : {es : Dict} → es.WellFormed inventory → es.Sound
  | .nil, _ => trivial
  | .cons _ _ _, wellFormed =>
    ⟨WireOf.WellFormed.sound wellFormed.1, DictOf.WellFormed.sound wellFormed.2⟩

end

end data

/-! ### Authorities -/

section auths
variable {inventory : Inventory} {kind : AuthKind} {scheme : Scheme} {domain : Bytes}

theorem Registered.regular_eq (registered : Registered inventory .regular scheme domain) :
    scheme = .regular ∧ domain = [] := by
  obtain ⟨-, same, found⟩ := registered
  obtain rfl := same rfl
  cases found
  exact ⟨rfl, rfl⟩

theorem ParentOf.Chain.parentDepth_eq : ∀ {n : Nat} {parent : Parent} (domain : Bytes)
    (view : ViewBox), parent.Chain kind scheme n →
      AuthOf.parentDepth (.mk kind scheme domain parent view) = n
  | 0, .none, _, _, _ => rfl
  | n + 1, .none, _, _, chain => False.elim chain
  | 0, .some (.mk ..), _, _, chain => False.elim chain
  | n + 1, .some (.mk kind' scheme' domain' parent view'), _, _, chain => by
    obtain ⟨sameKind, sameScheme, -, above⟩ := chain
    have depth := ParentOf.Chain.parentDepth_eq domain' view' above
    rw [AuthOf.parentDepth, sameKind, sameScheme, depth]

theorem ParentOf.Chain.eq_none {parent : Parent} (chain : parent.Chain kind scheme 0) :
    parent = .none := by
  cases parent with
  | none => rfl
  | some auth =>
    obtain ⟨kind', scheme', domain', parent, view⟩ := auth
    exact False.elim chain

/-- Only a view shows something. -/
theorem ViewBoxOf.WellFormed.eq_none {view : ViewBox} {path : Bytes}
    (wellFormed : view.WellFormed inventory kind path) (other : kind ≠ .view) : view = .none := by
  cases view with
  | none => rfl
  | some source data => exact absurd wellFormed.1 other

/-- The source of a view is its scheme and domain. -/
theorem AuthOf.WellFormed.source_eq {source : Auth} {path : Bytes}
    (wellFormed : source.WellFormed inventory path)
    (kinds : source.kind = .regular ∨ source.kind = .sftp) :
    Registered inventory source.kind source.scheme source.domain ∧
      source = .mk source.kind source.scheme source.domain .none .none := by
  obtain ⟨kind, scheme, domain, parent, view⟩ := source
  obtain ⟨registered, chain, shows⟩ := wellFormed
  change kind = .regular ∨ kind = .sftp at kinds
  have noHub : kind ≠ .hub := by
    rintro rfl
    rcases kinds with same | same <;> cases same
  have noView : kind ≠ .view := by
    rintro rfl
    rcases kinds with same | same <;> cases same
  rw [if_neg noHub] at chain
  rw [chain.eq_none, shows.eq_none noView]
  exact ⟨registered, rfl⟩

end auths

/-! ### Lengths -/

theorem Spec.length_encodePath (tilde : Bool) (path : Bytes) :
    path.length ≤ (Spec.encodePath tilde path).length := by
  cases tilde with
  | false => exact Nat.le_refl _
  | true =>
    have shorter := Percent.length_decode_le (Percent.encode Percent.pathSet path)
    rwa [Percent.decode_encode (by decide)] at shorter

/-- A port counts components of the path, so a text that holds the path is longer. -/
theorem Spec.ports_lt {loc : Loc} {n : Nat} (room : loc.inner.length + 1 < n) :
    (Spec.ports loc).1 < n ∧ (Spec.ports loc).2 < n := by
  have uri : loc.uri.length ≤ loc.inner.length := by
    rw [Loc.uri, List.length_drop]
    omega
  have urn : loc.urn.length ≤ loc.inner.length := by
    rw [Loc.urn, List.length_drop]
    omega
  have first := Path.length_components loc.uri
  have second := Path.length_components loc.urn
  simp only [Spec.ports]
  omega

/-! ### Sources -/

section sources
variable {inventory : Inventory} {floats : Floats}

private theorem sourceLoc_ports (loc : Loc) :
    Spec.ports (sourceLoc loc) =
      ((Path.name (sourceLoc loc).inner).isSome.toNat,
        (Path.name (sourceLoc loc).inner).isSome.toNat) := by
  have name : Path.name (sourceLoc loc).inner = Path.name (Url.saturated loc.base .view).inner := by
    change Path.name (Path.trim _) = _
    simp only [Path.name, Path.trim_trim]
  obtain ⟨uri, urn⟩ := Loc.length_bare (Url.saturated loc.base .view).inner
  rw [name]
  exact Prod.ext uri urn

/-- A path without `://` is read as a regular one. -/
private theorem regular_read {path : Bytes} (plain : ¬text "://" <:+: path) (depth : Nat) :
    ∃ n, parse inventory floats (depth + 1) path = .ok (⟨AuthOf.default, n, n⟩, ⟨.os, path⟩) :=
  Spec.parseWith_regular (Spec.parsed_path plain) rfl

/-- The text of a source, in front of the path, is read as the source. -/
private theorem source_read {source : Auth} {loc : Loc} (path : Bytes)
    (registered : Registered inventory source.kind source.scheme source.domain)
    (simple : source = .mk source.kind source.scheme source.domain .none .none)
    (kinds : source.kind = .regular ∧ ¬text "://" <:+: path ∨ source.kind = .sftp) {data : Wire}
    {t : Bytes} (written : (ViewBoxOf.some source data).encodeSource floats .view loc = some t)
    {kind : PathKind} (paths : source.kind.pathKind = .ok kind) (depth : Nat) :
    ∃ n, parse inventory floats (depth + 1) (t ++ path) = .ok (⟨source, n, n⟩, ⟨kind, path⟩) := by
  rw [ViewBoxOf.encodeSource, if_pos rfl] at written
  rcases kinds with ⟨regular, plain⟩ | remote
  · rw [if_pos (by simp [AuthOf.isRegular, regular])] at written
    cases written
    rw [regular] at registered paths simple
    cases paths
    obtain ⟨scheme, domain⟩ := registered.regular_eq
    rw [scheme, domain] at simple
    rw [simple]
    exact regular_read plain depth
  · rw [if_neg (by simp [AuthOf.isRegular, remote])] at written
    rw [remote] at registered paths simple
    cases paths
    generalize source.scheme = scheme, source.domain = domain at registered simple
    subst simple
    rw [AuthOf.encodeSpec] at written
    cases written
    have ports := sourceLoc_ports loc
    have bound : (Path.name (sourceLoc loc).inner).isSome.toNat < 2 ^ 64 :=
      Nat.lt_of_le_of_lt (Bool.toNat_le _) (by decide)
    have reads := Spec.parseWith_encodeAuth registered (by decide)
      (by rw [ports]; exact bound) (by rw [ports]; exact bound)
      (Decoder.run (value inventory floats depth)) (parse inventory floats depth) false path
    refine ⟨(Path.name path).isSome.toNat, ?_⟩
    have text : Spec.encodeAuth false scheme domain ++ Spec.encodePorts .sftp (sourceLoc loc) ++
        [Path.slash] ++ [] ++ path =
        Spec.encodeAuth false scheme domain ++ Spec.encodePorts .sftp (sourceLoc loc) ++
          Path.slash :: path := by
      simp
    rw [parse, text, reads, ports]
    simp only [Spec.portOption, Spec.portDefault, if_true]
    rfl

/-- A path with `://` is not read as itself. -/
private theorem regular_lost {path : Bytes} (hides : text "://" <:+: path) {depth : Nat}
    {spec : Spec} {read : PathDyn}
    (result : parse inventory floats depth path = .ok (spec, read)) :
    read.bytes.length < path.length := by
  have some : splitSeqOnce (text "://") path ≠ none := by
    rw [ne_eq, splitSeqOnce_eq_none (by decide), not_not]
    exact hides
  exact ((bounded inventory floats depth).2 path |>.of_ok result).2 some

end sources

/-! ### Urls -/

def PathKind.url (kind : PathKind) (loc : Loc) (auth : Auth) : Url :=
  match kind with
  | .os => .os loc auth
  | .unix => .unix loc auth

section urls
variable {inventory : Inventory} {floats : Floats} {kind : AuthKind} {scheme : Scheme}
  {domain : Bytes} {parent : Parent} {view : ViewBox} {loc : Loc} {paths : PathKind}

/-- Behind the ports, the kind decides. -/
private theorem tryFrom_lead (registered : Registered inventory kind scheme domain)
    (other : kind ≠ .regular) (room : loc.inner.length + 1 < 2 ^ 64) (tilde : Bool) (rest : Bytes)
    (depth : Nat) :
    tryFrom inventory floats (depth + 1)
        (Spec.encodeAuth tilde scheme domain ++ Spec.encodePorts kind loc ++ Path.slash :: rest) =
      (Spec.decodeKind (Decoder.run (value inventory floats depth)) (parse inventory floats depth)
          (.mk kind scheme domain .none .none) tilde rest >>= fun r =>
        Spec.normalizePorts r.2.kind
            (Spec.portOption (Spec.ports loc).1 (Spec.portDefault kind loc.inner))
            (Spec.portOption (Spec.ports loc).2 (Spec.portDefault kind loc.inner)) r.1 >>=
          fun ports => Spec.toUrl ⟨r.2, ports.1, ports.2⟩ r.1) := by
  obtain ⟨first, second⟩ := Spec.ports_lt room
  rw [tryFrom, parse, Spec.parseWith_encodeAuth registered other first second]
  cases Spec.decodeKind (Decoder.run (value inventory floats depth)) (parse inventory floats depth)
      (.mk kind scheme domain .none .none) tilde rest with
  | error e => rfl
  | ok r =>
    obtain ⟨path, auth⟩ := r
    change ((Spec.normalizePorts auth.kind _ _ path >>= _) >>= _) =
      (Spec.normalizePorts auth.kind _ _ path >>= _)
    cases Spec.normalizePorts auth.kind
        (Spec.portOption (Spec.ports loc).1 (Spec.portDefault kind loc.inner))
        (Spec.portOption (Spec.ports loc).2 (Spec.portDefault kind loc.inner)) path <;> rfl

/-- The location is read back where the path is. -/
private theorem located_read {auth : Auth} (same : auth.kind = kind) (other : kind ≠ .regular)
    (valid : auth.validate = .ok ()) (of : auth.pathKind = .ok paths)
    (depth : kind = .hub → auth.parentDepth = Path.authDepth loc.inner) (admitted : loc.Admitted) :
    (Spec.normalizePorts auth.kind
        (Spec.portOption (Spec.ports loc).1 (Spec.portDefault kind loc.inner))
        (Spec.portOption (Spec.ports loc).2 (Spec.portDefault kind loc.inner)) ⟨paths, loc.inner⟩ >>=
      fun ports => Spec.toUrl ⟨auth, ports.1, ports.2⟩ ⟨paths, loc.inner⟩) =
      .ok (paths.url loc auth) := by
  subst same
  have admits := admitted.withPorts
  have order := Loc.le_of_withPorts admits
  have ports := Spec.normalizePorts_portOption other order ⟨paths, loc.inner⟩
  have made := Spec.toUrl_withPorts valid of other depth admits
  rw [ports]
  cases paths <;> exact made

/-- A kind that is read from its scheme alone. -/
private theorem simple_read (simple : kind = .mount ∨ kind = .scope ∨ kind = .sftp)
    (registered : Registered inventory kind scheme domain)
    (of : kind.pathKind = .ok paths) (admitted : loc.Admitted)
    (room : loc.inner.length + 1 < 2 ^ 64) (tilde : Bool) (depth : Nat) :
    tryFrom inventory floats (depth + 1)
        (Spec.encodeAuth tilde scheme domain ++ Spec.encodePorts kind loc ++
          Path.slash :: Spec.encodePath tilde loc.inner) =
      .ok (paths.url loc (.mk kind scheme domain .none .none)) := by
  have other : kind ≠ .regular := by rcases simple with rfl | rfl | rfl <;> decide
  have noHub : kind ≠ .hub := by rcases simple with rfl | rfl | rfl <;> decide
  rw [tryFrom_lead registered other room]
  have decodes : Spec.decodeKind (Decoder.run (value inventory floats depth))
      (parse inventory floats depth) (.mk kind scheme domain .none .none) tilde
      (Spec.encodePath tilde loc.inner) =
      .ok (⟨paths, loc.inner⟩, .mk kind scheme domain .none .none) := by
    rcases simple with rfl | rfl | rfl <;> cases of <;>
    · change Except.ok (Spec.decodePath _ tilde (Spec.encodePath tilde loc.inner), _) = _
      rw [Spec.decodePath_encodePath]
  rw [decodes]
  refine located_read rfl other ?_ of (fun hub => absurd hub noHub) admitted
  rcases simple with rfl | rfl | rfl <;> rfl

private theorem hub_read (registered : Registered inventory .hub scheme domain)
    (chain : parent.Chain .hub scheme (Path.authDepth loc.inner)) (admitted : loc.Admitted)
    (room : loc.inner.length + 1 < 2 ^ 64) (tilde : Bool) (depth : Nat) :
    tryFrom inventory floats (depth + 1)
        (Spec.encodeAuth tilde scheme domain ++ Spec.encodePorts .hub loc ++
          Path.slash :: 0x40 ::
            ([0x2c].intercalate (parent.domains.map (Percent.encodeDomain Percent.parentSet)) ++
              Path.slash :: Spec.encodePath tilde loc.inner)) =
      .ok (.os loc (.mk .hub scheme domain parent .none)) := by
  rw [tryFrom_lead registered (by decide) room]
  have decodes : Spec.decodeHub (.mk .hub scheme domain .none .none) tilde _ = _ :=
    Spec.decodeHub_domains chain tilde
  change (Spec.decodeHub _ tilde _ >>= _) = _
  rw [decodes]
  have same : (AuthOf.mk .hub scheme domain parent .none : Auth).kind = .hub := rfl
  exact located_read same (by decide) rfl rfl
    (fun _ => ParentOf.Chain.parentDepth_eq domain .none chain) admitted

/-- The text of `paths.url loc auth` reads as that url if it is `plain`; else it fails or reads
as another. -/
private def ReadBack (x : Except Error Url) (plain : Prop) (url : Url) : Prop :=
  Yields x (fun _ => ¬plain) fun url' =>
    (SameUrl url' url ↔ plain) ∧ (plain → Spec.retrievePorts url' = Spec.retrievePorts url)

private theorem readBack_of_ok {x : Except Error Url} {plain : Prop} {url : Url} (holds : plain)
    (same : x = .ok url) : ReadBack x plain url := by
  rw [same]
  exact ⟨iff_of_true rfl holds, fun _ => rfl⟩

@[simp] private theorem sameUrl_url (loc' : Loc) (auth auth' : Auth) :
    SameUrl (paths.url loc' auth') (paths.url loc auth) ↔
      loc'.inner = loc.inner ∧ auth'.map Loc.inner id = auth.map Loc.inner id := by
  cases paths <;> simp [SameUrl, PathKind.url, UrlOf.map]

private theorem any {α : Type} {fails : Prop} (holds : fails) (x : Except Error α) :
    Yields x (fun _ => fails) fun _ => True := by
  cases x with
  | error e => exact holds
  | ok a => trivial

private theorem loc_url (loc : Loc) (auth : Auth) : (paths.url loc auth).loc = loc := by
  cases paths <;> rfl

private theorem inner_of_sameUrl {a b : Url} (same : SameUrl a b) : a.loc.inner = b.loc.inner := by
  cases a <;> cases b <;> simp only [SameUrl, UrlOf.map, reduceCtorEq, UrlOf.os.injEq,
    UrlOf.unix.injEq] at same
  · exact same.1
  · exact same.1

private theorem view_read {source : Auth} {data : Wire}
    (registered : Registered inventory .view scheme domain)
    (shows : (ViewBoxOf.some source data).WellFormed inventory .view loc.inner)
    (of : source.kind.pathKind = .ok paths) (admitted : loc.Admitted)
    (urls : data.Urls fun url => UrlReads inventory floats url.Plain url)
    {dataText sourceText : Bytes} (written : data.encode floats = some dataText)
    (shown : (ViewBoxOf.some source data).encodeSource floats .view loc = some sourceText)
    (room : loc.inner.length + 1 < 2 ^ 64) (fits : dataText.length < 2 ^ 64) (tilde : Bool)
    {depth : Nat} (deep : dataText.length < depth) :
    ReadBack (tryFrom inventory floats (depth + 1)
        (Spec.encodeAuth tilde scheme domain ++ Spec.encodePorts .view loc ++
          Path.slash :: 0x40 :: (dataText ++
            Path.slash :: Spec.encodePath tilde (sourceText ++ loc.inner))))
      ((ViewBoxOf.some source data).Plain loc.inner)
      (paths.url loc (.mk .view scheme domain .none (.some source data))) := by
  obtain ⟨-, kinds, sources, wellFormed⟩ := shows
  obtain ⟨registeredSource, simple⟩ := AuthOf.WellFormed.source_eq sources kinds
  have view : AuthKind.view ≠ .regular := by decide
  have clean : ∀ b ∈ dataText, b ≠ Path.slash ∧ b ≠ Percent.percent := fun b member =>
    let c := WireOf.clean_encode floats data written b member
    ⟨c.1, c.2.1⟩
  have reads := yields_run (WireOf.WellFormed.sound wellFormed) urls written fits deep
  rw [← WireOf.plain_iff] at reads
  rw [tryFrom_lead registered view room]
  change ReadBack (Spec.decodeView _ _ _ tilde _ >>= _) _ _
  rw [Spec.decodeView_append _ tilde clean]
  cases result : Decoder.run (value inventory floats depth) dataText with
  | error e => exact fun plain => reads.of_error result plain.2
  | ok data' =>
    have same := reads.of_ok result
    change ReadBack ((parse inventory floats depth (sourceText ++ loc.inner) >>= _) >>= _) _ _
    by_cases hides : source.kind = .regular ∧ text "://" <:+: loc.inner
    · -- The source is read from a shorter path, or not at all.
      have lost : ¬(ViewBoxOf.some source data).Plain loc.inner :=
        fun plain => plain.1 hides.1 hides.2
      rw [ViewBoxOf.encodeSource, if_pos rfl, if_pos (by simp [AuthOf.isRegular, hides.1])] at shown
      cases shown
      cases found : parse inventory floats depth ([] ++ loc.inner) with
      | error e => exact lost
      | ok r =>
        obtain ⟨spec, path⟩ := r
        have shorter := regular_lost hides.2 found
        refine @Yields.bind _ _ _ _ _ _ (fun r => r.1 = path) _ ?_ ?_
        · change Yields (Error.ofText _ >>= _) _ _
          exact (any lost _).bind fun _ _ => rfl
        · rintro ⟨path', auth'⟩ rfl
          refine (any lost _).bind fun ports _ => ?_
          cases made : Spec.toUrl ⟨auth', ports.1, ports.2⟩ path' with
          | error e => exact lost
          | ok url' =>
            refine ⟨iff_of_false (fun same => ?_) lost, fun plain => absurd plain lost⟩
            have inner := Spec.inner_toUrl made
            have trim := Path.length_trim path'.bytes
            rw [← inner, inner_of_sameUrl same, loc_url] at trim
            exact absurd (Nat.lt_of_lt_of_le shorter trim) (Nat.lt_irrefl _)
    · have plain : source.kind = .regular ∧ ¬text "://" <:+: loc.inner ∨ source.kind = .sftp := by
        rcases kinds with regular | remote
        · exact .inl ⟨regular, fun inside => hides ⟨regular, inside⟩⟩
        · exact .inr remote
      obtain ⟨deeper, rfl⟩ := Nat.exists_eq_succ_of_ne_zero (Nat.ne_zero_of_lt deep)
      obtain ⟨n, found⟩ := source_read loc.inner registeredSource simple plain shown of deeper
      have valid : ((AuthOf.mk .view scheme domain .none .none : Auth).withView
          (.some source data')).validate = .ok () := by
        rcases kinds with kind | kind <;>
          simp [AuthOf.withView, AuthOf.validate, AuthOf.kind, AuthOf.view, AuthOf.isRegular] at kind ⊢ <;>
          simp [kind]
      rw [found]
      change ReadBack ((Error.ofText (AuthOf.validate _) >>= _) >>= _) _ _
      rw [valid]
      have shownAs : (AuthOf.mk .view scheme domain .none (.some source data') : Auth).kind = .view :=
        rfl
      have located := located_read shownAs view valid of (fun hub => AuthKind.noConfusion hub) admitted
      change ReadBack (Spec.normalizePorts _ _ _ _ >>= _) _ _
      refine (congrArg (ReadBack · _ _) located).mpr ?_
      have only : (ViewBoxOf.some source data).Plain loc.inner ↔ data.Plain :=
        and_iff_right fun regular inside => hides ⟨regular, inside⟩
      rw [only]
      refine ⟨?_, fun _ => ?_⟩
      · simpa [AuthOf.map, ViewBoxOf.map, ParentOf.map] using same
      · cases paths <;> rfl

private theorem length_encodeAuth (tilde : Bool) (scheme : Scheme) (domain : Bytes) :
    3 ≤ (Spec.encodeAuth tilde scheme domain).length := by
  have three : (text "://").length = 3 := by decide
  simp only [Spec.encodeAuth, List.length_append, three]
  omega

/-- The text in front of the path and the path are read back, whether they are escaped or not. -/
private theorem lead_read (other : kind ≠ .regular)
    (wellFormed : (AuthOf.mk kind scheme domain parent view).WellFormed inventory loc.inner)
    (of : AuthOf.pathKind (.mk kind scheme domain parent view) = .ok paths)
    (admitted : loc.Admitted)
    (urls : ∀ source data, view = .some source data →
      data.Urls fun url => UrlReads inventory floats url.Plain url)
    {lead source : Bytes} (written : encodePrefix kind parent (view.encodeData floats) = some lead)
    (shown : view.encodeSource floats kind loc = some source) (tilde : Bool) {t : Bytes}
    (whole : t = Spec.encodeAuth tilde scheme domain ++ Spec.encodePorts kind loc ++ lead ++
      Spec.encodePath tilde (source ++ loc.inner))
    (fits : t.length < 2 ^ 64) {depth : Nat} (deep : t.length < depth) :
    ReadBack (tryFrom inventory floats depth t) (view.Plain loc.inner)
      (paths.url loc (.mk kind scheme domain parent view)) := by
  obtain ⟨registered, chain, shows⟩ := wellFormed
  have start := length_encodeAuth tilde scheme domain
  have path := Spec.length_encodePath tilde loc.inner
  have length := congrArg List.length whole
  simp only [Spec.encodePath_append, List.length_append] at length
  have room : loc.inner.length + 1 < 2 ^ 64 := by omega
  obtain ⟨deeper, rfl⟩ := Nat.exists_eq_succ_of_ne_zero (Nat.ne_zero_of_lt deep)
  by_cases isView : kind = .view
  · subst isView
    cases view with
    | none => exact absurd rfl shows
    | some shownAuth data =>
      obtain rfl := chain.eq_none
      obtain ⟨dataText, dataWritten, rfl⟩ := Option.map_eq_some_iff.mp written
      have mark : text "/@" = [Path.slash, 0x40] := by decide
      have shallow : dataText.length < deeper := by
        simp only [List.length_append] at length
        omega
      have read := view_read registered shows of admitted (urls _ _ rfl) dataWritten shown room
        (by simp only [List.length_append] at length; omega) tilde shallow
      rw [whole, mark]
      simpa using read
  · have none := shows.eq_none isView
    subst none
    have bare : source = [] := by
      rw [ViewBoxOf.encodeSource, if_neg isView] at shown
      exact (Option.some.inj shown).symm
    subst bare
    by_cases isHub : kind = .hub
    · subst isHub
      cases of
      cases written
      have mark : text "/@" = [Path.slash, 0x40] := by decide
      have read : tryFrom inventory floats (deeper + 1) _ = _ :=
        hub_read registered chain admitted room tilde deeper
      rw [whole, mark]
      refine readBack_of_ok trivial ?_
      change _ = Except.ok (UrlOf.os loc _)
      simpa using read
    · rw [if_neg isHub] at chain
      obtain rfl := chain.eq_none
      have simple : kind = .mount ∨ kind = .scope ∨ kind = .sftp := by
        cases kind <;> simp at other isView isHub ⊢
      have slash : lead = [Path.slash] := by
        rcases simple with rfl | rfl | rfl <;> cases written <;> rfl
      have read : tryFrom inventory floats (deeper + 1) _ = _ :=
        simple_read simple registered of admitted room tilde deeper
      rw [whole, slash]
      refine readBack_of_ok trivial ?_
      simpa using read

/-- The scheme of a regular url in front of its path tells that it is one. -/
private theorem regular_encoded (path : Bytes) (depth : Nat) :
    tryFrom inventory floats (depth + 1)
        (Spec.encodeAuth true .regular [] ++ Spec.encodePath true path) =
      .ok (.os (Loc.bare path) AuthOf.default) := by
  have proper : Scheme.regular.Proper := trivial
  obtain ⟨parsed, header, isScheme, isTilde, isRest⟩ :=
    parsed_scheme proper true (Spec.encodePath true path)
  have whole : Spec.encodeAuth true .regular [] ++ Spec.encodePath true path =
      Scheme.asStr .regular ++ (if true then [Twiddle.tilde] else []) ++
        (text "://" ++ Spec.encodePath true path) := by
    have none : Percent.encodeDomain Percent.domainSet [] = [] := by decide
    simp only [Spec.encodeAuth, none, List.append_nil, List.append_assoc]
  have reads : ∃ n, Spec.parseWith inventory (Decoder.run (value inventory floats depth))
      (parse inventory floats depth) _ = _ := Spec.parseWith_regular header isScheme
  obtain ⟨n, found⟩ := reads
  rw [isTilde, isRest, Spec.decodePath_encodePath] at found
  rw [whole, tryFrom, parse, found]
  exact Spec.toUrl_default n path

private theorem bare_of_trimmed (loc : Loc) : (Loc.bare loc.inner).inner = loc.inner := loc.trimmed

/-- Regular urls are equal when their paths are. -/
private theorem readBack_regular {x : Except Error Url} {plain : Prop} (holds : plain)
    (same : x = .ok (.os (Loc.bare loc.inner) AuthOf.default)) :
    ReadBack x plain (.os loc AuthOf.default) := by
  rw [same]
  have inner := bare_of_trimmed loc
  refine ⟨iff_of_true ?_ holds, fun _ => ?_⟩
  · simp only [SameUrl, UrlOf.map, inner]
  · have regular : (AuthOf.default : Auth).isRegular = true := rfl
    simp only [Spec.retrievePorts, regular, inner, if_true]

/-- A regular authority is the default one. -/
private theorem eq_default {auth : Auth} {path : Bytes}
    (wellFormed : auth.WellFormed inventory path) (regular : auth.kind = .regular) :
    auth = AuthOf.default := by
  obtain ⟨registered, simple⟩ := AuthOf.WellFormed.source_eq wellFormed (.inl regular)
  rw [regular] at registered simple
  obtain ⟨scheme, domain⟩ := registered.regular_eq
  rw [simple, scheme, domain]
  rfl

private theorem encodeAt_read {auth : Auth} (wellFormed : auth.WellFormed inventory loc.inner)
    (of : auth.pathKind = .ok paths) (admitted : auth.kind ≠ .regular → loc.Admitted)
    (urls : ∀ source data, auth.view = .some source data →
      data.Urls fun url => UrlReads inventory floats url.Plain url)
    {t : Bytes} (written : auth.encodeAt floats loc = some t) (fits : t.length < 2 ^ 64)
    {depth : Nat} (deep : t.length < depth) :
    ReadBack (tryFrom inventory floats depth t) (auth.Plain loc.inner) (paths.url loc auth) := by
  by_cases regular : auth.kind = .regular
  · obtain rfl := eq_default wellFormed regular
    obtain ⟨deeper, rfl⟩ := Nat.exists_eq_succ_of_ne_zero (Nat.ne_zero_of_lt deep)
    cases of
    cases written
    exact readBack_regular trivial (regular_encoded loc.inner deeper)
  · obtain ⟨kind, scheme, domain, parent, view⟩ := auth
    have other : kind ≠ .regular := regular
    simp only [AuthOf.encodeAt, if_neg other, Option.bind_eq_bind] at written
    obtain ⟨lead, first, written⟩ := Option.bind_eq_some_iff.mp written
    obtain ⟨source, second, same⟩ := Option.bind_eq_some_iff.mp written
    have whole : t = Spec.encodeAuth true scheme domain ++ Spec.encodePorts kind loc ++ lead ++
        Spec.encodePath true (source ++ loc.inner) := by
      rw [Spec.encodePath_append, ← List.append_assoc]
      exact (Option.some.inj same).symm
    exact lead_read other wellFormed of (admitted regular) urls first second true whole fits deep

-- A url reads back once those in its data do.
mutual

theorem UrlOf.WellFormed.reads : (url : Url) → url.WellFormed inventory →
    UrlReads inventory floats url.Plain url
  | .os _ auth, ⟨wellFormed, of, admitted⟩ => fun _ written fits _ deep =>
    Yields.weaken (encodeAt_read wellFormed of admitted (AuthOf.WellFormed.reads auth _ wellFormed)
      written fits deep) (fun _ holds => holds) fun _ holds => holds.1
  | .unix _ auth, ⟨wellFormed, of, admitted⟩ => fun _ written fits _ deep =>
    Yields.weaken (encodeAt_read wellFormed of admitted (AuthOf.WellFormed.reads auth _ wellFormed)
      written fits deep) (fun _ holds => holds) fun _ holds => holds.1

theorem AuthOf.WellFormed.reads : (auth : Auth) → (path : Bytes) → auth.WellFormed inventory path →
    ∀ source data, auth.view = .some source data →
      data.Urls fun url => UrlReads inventory floats url.Plain url
  | .mk _ _ _ _ (.some _ data), _, wellFormed, _, _, rfl =>
    WireOf.WellFormed.reads data wellFormed.2.2.2.2.2

theorem WireOf.WellFormed.reads : (w : Wire) → w.WellFormed inventory →
    w.Urls fun url => UrlReads inventory floats url.Plain url
  | .list values, wellFormed => WiresOf.WellFormed.reads values wellFormed
  | .dict entries, wellFormed => DictOf.WellFormed.reads entries wellFormed.1
  | .url url, wellFormed => UrlOf.WellFormed.reads url wellFormed
  | .nil, _ | .boolean _, _ | .integer _, _ | .number _, _ | .string _, _ | .id _, _
  | .bytes _, _ => trivial

theorem WiresOf.WellFormed.reads : (ws : Wires) → ws.WellFormed inventory →
    ws.Urls fun url => UrlReads inventory floats url.Plain url
  | .nil, _ => trivial
  | .cons value rest, wellFormed =>
    ⟨WireOf.WellFormed.reads value wellFormed.1, WiresOf.WellFormed.reads rest wellFormed.2⟩

theorem DictOf.WellFormed.reads : (es : Dict) → es.WellFormed inventory →
    es.Urls fun url => UrlReads inventory floats url.Plain url
  | .nil, _ => trivial
  | .cons _ value rest, wellFormed =>
    ⟨WireOf.WellFormed.reads value wellFormed.1, DictOf.WellFormed.reads rest wellFormed.2⟩

end

/-- The text of a regular url is its path, which may look like another url. -/
private theorem path_read {t : Bytes} (loc : Loc) (same : t = loc.inner) {depth : Nat}
    (deep : t.length < depth) :
    ReadBack (tryFrom inventory floats depth t) (¬text "://" <:+: loc.inner)
      (.os loc AuthOf.default) := by
  subst same
  obtain ⟨deeper, rfl⟩ := Nat.exists_eq_succ_of_ne_zero (Nat.ne_zero_of_lt deep)
  by_cases hides : text "://" <:+: loc.inner
  · have lost : ¬¬text "://" <:+: loc.inner := not_not.mpr hides
    rw [tryFrom]
    cases found : parse inventory floats (deeper + 1) loc.inner with
    | error e => exact lost
    | ok r =>
      obtain ⟨spec, path⟩ := r
      have shorter := regular_lost hides found
      change ReadBack (Spec.toUrl spec path) _ _
      cases made : Spec.toUrl spec path with
      | error e => exact lost
      | ok url' =>
        refine ⟨iff_of_false (fun same => ?_) lost, fun plain => absurd plain lost⟩
        have trim := Path.length_trim path.bytes
        have inner : url'.loc.inner = loc.inner := inner_of_sameUrl same
        rw [← Spec.inner_toUrl made, inner] at trim
        exact absurd (Nat.lt_of_lt_of_le shorter trim) (Nat.lt_irrefl _)
  · obtain ⟨n, found⟩ := regular_read hides deeper
    refine readBack_regular hides ?_
    rw [tryFrom, found]
    exact Spec.toUrl_default n loc.inner

/-- What the text of an unescaped url reads as. -/
private theorem strand_read {auth : Auth} (wellFormed : auth.WellFormed inventory loc.inner)
    (of : auth.pathKind = .ok paths) (admitted : auth.kind ≠ .regular → loc.Admitted) {t : Bytes}
    (written : (if auth.isRegular then some loc.inner
      else (auth.encodeSpec floats loc).map (· ++ loc.inner)) = some t)
    (fits : t.length < 2 ^ 64) {depth : Nat} (deep : t.length < depth) :
    ReadBack (tryFrom inventory floats depth t)
      (auth.Plain loc.inner ∧ (auth.isRegular = true → ¬text "://" <:+: loc.inner))
      (paths.url loc auth) := by
  by_cases regular : auth.kind = .regular
  · obtain rfl := eq_default wellFormed regular
    cases of
    cases written
    have only : ((AuthOf.default : Auth).Plain loc.inner ∧
        ((AuthOf.default : Auth).isRegular = true → ¬text "://" <:+: loc.inner)) ↔
        ¬text "://" <:+: loc.inner :=
      ⟨fun both => both.2 rfl, fun plain => ⟨trivial, fun _ => plain⟩⟩
    rw [only]
    exact path_read loc rfl deep
  · have irregular : auth.isRegular = false := decide_eq_false regular
    have only : (auth.Plain loc.inner ∧ (auth.isRegular = true → ¬text "://" <:+: loc.inner)) ↔
        auth.Plain loc.inner :=
      and_iff_left fun isRegular => absurd isRegular (by rw [irregular]; decide)
    rw [only]
    rw [irregular, if_neg (by decide)] at written
    have other := admitted regular
    have urls := @AuthOf.WellFormed.reads inventory floats auth _ wellFormed
    obtain ⟨kind, scheme, domain, parent, view⟩ := auth
    obtain ⟨spec, specWritten, rfl⟩ := Option.map_eq_some_iff.mp written
    simp only [AuthOf.encodeSpec, Option.bind_eq_bind] at specWritten
    obtain ⟨lead, first, specWritten⟩ := Option.bind_eq_some_iff.mp specWritten
    obtain ⟨source, second, shape⟩ := Option.bind_eq_some_iff.mp specWritten
    have whole : spec ++ loc.inner = Spec.encodeAuth false scheme domain ++
        Spec.encodePorts kind loc ++ lead ++ Spec.encodePath false (source ++ loc.inner) := by
      rw [Spec.encodePath_append, ← List.append_assoc, ← Option.some.inj shape]
      rfl
    exact lead_read regular wellFormed of other urls first second false whole fits deep

private theorem serialize_read {auth : Auth} (wellFormed : auth.WellFormed inventory loc.inner)
    (of : auth.pathKind = .ok paths) (admitted : auth.kind ≠ .regular → loc.Admitted)
    (valid : Utf8.isUtf8 loc.inner = true) {t : Bytes}
    (written : serialize floats (paths.url loc auth) = some t) (fits : t.length < 2 ^ 64)
    {depth : Nat} (deep : t.length < depth) :
    ReadBack (tryFrom inventory floats depth t)
      (auth.Plain loc.inner ∧ (auth.isRegular = true → ¬text "://" <:+: loc.inner))
      (paths.url loc auth) := by
  have inner : (paths.url loc auth).loc = loc := loc_url loc auth
  have same : (paths.url loc auth).auth = auth := by cases paths <;> rfl
  have sameRegular : (paths.url loc auth).isRegular = auth.isRegular := by cases paths <;> rfl
  rw [serialize, inner, same, sameRegular, valid] at written
  refine strand_read wellFormed of admitted ?_ fits deep
  rw [← written]
  cases auth.isRegular <;> rfl

end urls

/-! ### Samples -/

/-- Numbers written by their bits, as zero is written. -/
def Floats.bits : Floats where
  print n := Decimal.write n.bits.toNat
  parse s :=
    match Decimal.parse s with
    | .ok v =>
      if canonical : (UInt64.ofNat v &&& 0x7ff0000000000000 = 0x7ff0000000000000 →
          UInt64.ofNat v &&& 0x000fffffffffffff = 0 ∨ UInt64.ofNat v = 0x7ff8000000000000) then
        some ⟨UInt64.ofNat v, canonical⟩
      else none
    | .error _ => none
  parse_print n := by
    have same : UInt64.ofNat n.bits.toNat = n.bits := UInt64.ofNat_toNat
    have canonical := n.canonical
    rw [Decimal.parse_write n.bits.toNat_lt]
    simp only [same]
    rw [dif_pos canonical]
  utf8_print n := by
    have parses := Decimal.parse_write n.bits.toNat_lt
    rw [Decimal.parse] at parses
    split at parses
    · next valid => exact valid
    · cases parses

/-- Every custom scheme is a view, whatever its domain. -/
def Inventory.views : Inventory
  | .regular, _ => none
  | .sftp, domain => some (.mk .sftp .sftp domain .none .none)
  | .custom key, domain => some (.mk .view (.custom key) domain .none .none)

theorem find_valid :
    text "find" ≠ [] ∧ (text "find").length ≤ 20 ∧ kebabCased (text "find") = true := by decide

def find : Scheme := .custom ⟨text "find", find_valid⟩

/-- A view of the local directory at this path. -/
def viewAt (path : Bytes) : Url :=
  .os (Loc.zeroed path) (.mk .view find [] .none (.some AuthOf.default .nil))

private theorem wellFormed_default (path : Bytes) :
    (AuthOf.default : Auth).WellFormed Inventory.views path :=
  ⟨⟨trivial, fun _ => rfl, rfl⟩, trivial, AuthKind.noConfusion⟩

private theorem wellFormed_regular (path : Bytes) :
    (Url.regular path).WellFormed Inventory.views :=
  ⟨wellFormed_default _, rfl, fun other => absurd rfl other⟩

private theorem wellFormed_viewAt (path : Bytes) : (viewAt path).WellFormed Inventory.views := by
  have proper : find.Proper := by
    simp only [find, Scheme.Proper]
    decide
  have admits : Loc.withPorts path 0 0 = .ok (Loc.zeroed path) := rfl
  have shows : (ViewBoxOf.some AuthOf.default .nil : ViewBox).WellFormed Inventory.views .view
      (Loc.zeroed path).inner :=
    ⟨rfl, .inl rfl, wellFormed_default _, trivial⟩
  exact ⟨⟨⟨proper, (fun regular => by cases regular), rfl⟩, trivial, shows⟩, rfl, fun _ => Loc.admitted_of_withPorts admits⟩

/-! ### Results -/

/-- Reading gives the url again, to the ports. -/
def Recovers (inventory : Inventory) (floats : Floats) (t : Bytes) (url : Url) : Prop :=
  ∃ url', decode inventory floats t = .ok url' ∧ SameUrl url' url ∧
    Spec.retrievePorts url' = Spec.retrievePorts url

private theorem recovers_iff {inventory : Inventory} {floats : Floats} {t : Bytes} {url : Url}
    {plain : Prop} (reads : ReadBack (decode inventory floats t) plain url) :
    Recovers inventory floats t url ↔ plain := by
  constructor
  · rintro ⟨url', result, same, -⟩
    exact (Yields.of_ok reads result).1.mp same
  · intro holds
    have outcome : Yields (decode inventory floats t) (fun _ => ¬plain) _ := reads
    cases result : decode inventory floats t with
    | error e => exact absurd holds (outcome.of_error result)
    | ok url' =>
      obtain ⟨same, ports⟩ := Yields.of_ok reads result
      exact ⟨url', result, same.mpr holds, ports holds⟩

private theorem encode_read {inventory : Inventory} {floats : Floats} {url : Url}
    (wellFormed : url.WellFormed inventory) {t : Bytes} (written : url.encode floats = some t)
    (fits : t.length < 2 ^ 64) : ReadBack (decode inventory floats t) url.Plain url := by
  have deep := Nat.lt_succ_self t.length
  cases url with
  | os loc auth =>
    obtain ⟨wellFormed, of, admitted⟩ := wellFormed
    exact encodeAt_read wellFormed of admitted
      (AuthOf.WellFormed.reads auth _ wellFormed) written fits deep
  | unix loc auth =>
    obtain ⟨wellFormed, of, admitted⟩ := wellFormed
    exact encodeAt_read wellFormed of admitted
      (AuthOf.WellFormed.reads auth _ wellFormed) written fits deep

/-- An encoded url is read back exactly if no view hides a path with `://` behind it. -/
theorem encode_recovers_iff (inventory : Inventory) (floats : Floats) (url : Url)
    (wellFormed : url.WellFormed inventory) :
    ∃ t, url.encode floats = some t ∧
      (t.length < 2 ^ 64 → (Recovers inventory floats t url ↔ url.Plain)) := by
  obtain ⟨t, written⟩ := UrlOf.encode_total floats url wellFormed
  exact ⟨t, written, fun fits => recovers_iff (encode_read wellFormed written fits)⟩

private theorem serialize_total {inventory : Inventory} (floats : Floats) {url : Url}
    (wellFormed : url.WellFormed inventory) : ∃ t, serialize floats url = some t := by
  rw [serialize]
  split
  · exact ⟨_, rfl⟩
  · cases url with
    | os loc auth =>
      obtain ⟨t, written⟩ := AuthOf.encodeSpec_total floats auth _ wellFormed.1 loc
      exact ⟨_, Option.map_eq_some_iff.mpr ⟨t, written, rfl⟩⟩
    | unix loc auth =>
      obtain ⟨t, written⟩ := AuthOf.encodeSpec_total floats auth _ wellFormed.1 loc
      exact ⟨_, Option.map_eq_some_iff.mpr ⟨t, written, rfl⟩⟩
  · exact UrlOf.encode_total floats url wellFormed

theorem encode_recovers_view :
    (viewAt (text "/a/b")).WellFormed Inventory.views ∧
      ∃ t, (viewAt (text "/a/b")).encode Floats.bits = some t ∧ (t.length < 2 ^ 64 →
        (Recovers Inventory.views Floats.bits t (viewAt (text "/a/b")) ↔
          (viewAt (text "/a/b")).Plain)) :=
  ⟨wellFormed_viewAt _, encode_recovers_iff _ _ _ (wellFormed_viewAt _)⟩

/-- The view of the directory `b` below `/a:` is taken for a url of its own scheme. -/
theorem encode_loses_view :
    (viewAt (text "/a://b")).WellFormed Inventory.views ∧
      ∃ t, (viewAt (text "/a://b")).encode Floats.bits = some t ∧ t.length < 2 ^ 64 ∧
        ¬Recovers Inventory.views Floats.bits t (viewAt (text "/a://b")) := by
  have wellFormed := wellFormed_viewAt (text "/a://b")
  have length : ∃ t, (viewAt (text "/a://b")).encode Floats.bits = some t ∧ t.length < 2 ^ 64 :=
    ⟨_, rfl, by decide⟩
  obtain ⟨t, written, fits⟩ := length
  refine ⟨wellFormed, t, written, fits, fun recovers => ?_⟩
  have plain := (recovers_iff (encode_read wellFormed written fits)).mp recovers
  exact plain.1 rfl (by decide)

/-- A serialized url is read back exactly if it is plain and, where it is regular, its path has
no `://`. -/
theorem serialize_recovers_iff (inventory : Inventory) (floats : Floats) (url : Url)
    (wellFormed : url.WellFormed inventory) (valid : Utf8.isUtf8 url.loc.inner = true) :
    ∃ t, serialize floats url = some t ∧ (t.length < 2 ^ 64 →
      (Recovers inventory floats t url ↔
        url.Plain ∧ (url.isRegular = true → ¬text "://" <:+: url.loc.inner))) := by
  obtain ⟨t, written⟩ := serialize_total floats wellFormed
  refine ⟨t, written, fun fits => recovers_iff ?_⟩
  have deep := Nat.lt_succ_self t.length
  cases url with
  | os loc auth =>
    obtain ⟨wellFormed, of, admitted⟩ := wellFormed
    exact serialize_read wellFormed of admitted valid written fits deep
  | unix loc auth =>
    obtain ⟨wellFormed, of, admitted⟩ := wellFormed
    exact serialize_read wellFormed of admitted valid written fits deep

/-- The path with what stands before it is read back on the same terms, whatever its bytes. -/
theorem strand_recovers_iff {inventory : Inventory} {floats : Floats} {url : Url}
    (wellFormed : url.WellFormed inventory) {t : Bytes}
    (written : (if url.isRegular then some url.loc.inner
      else (url.auth.encodeSpec floats url.loc).map (· ++ url.loc.inner)) = some t)
    (fits : t.length < 2 ^ 64) :
    Recovers inventory floats t url ↔
      url.Plain ∧ (url.isRegular = true → ¬text "://" <:+: url.loc.inner) := by
  refine recovers_iff ?_
  have deep := Nat.lt_succ_self t.length
  cases url with
  | os loc auth =>
    obtain ⟨wellFormed, of, admitted⟩ := wellFormed
    exact strand_read wellFormed of admitted written fits deep
  | unix loc auth =>
    obtain ⟨wellFormed, of, admitted⟩ := wellFormed
    exact strand_read wellFormed of admitted written fits deep

theorem serialize_recovers_regular :
    Utf8.isUtf8 (text "/~a%/b") = true ∧
      ∃ t, serialize Floats.bits (Url.regular (text "/~a%/b")) = some t ∧ (t.length < 2 ^ 64 →
        (Recovers Inventory.views Floats.bits t (Url.regular (text "/~a%/b")) ↔
          (Url.regular (text "/~a%/b")).Plain ∧
            ((Url.regular (text "/~a%/b")).isRegular = true →
              ¬text "://" <:+: (Url.regular (text "/~a%/b")).loc.inner))) :=
  ⟨by decide, serialize_recovers_iff _ _ _ (wellFormed_regular _) (by decide)⟩

/-- The text of `/a://b` is taken for a url with an unknown scheme. -/
theorem serialize_loses_regular :
    (Url.regular (text "/a://b")).WellFormed Inventory.views ∧
      Utf8.isUtf8 (Url.regular (text "/a://b")).loc.inner = true ∧
        serialize Floats.bits (Url.regular (text "/a://b")) = some (text "/a://b") ∧
          ¬Recovers Inventory.views Floats.bits (text "/a://b") (Url.regular (text "/a://b")) := by
  refine ⟨wellFormed_regular _, by decide, by decide, fun recovers => ?_⟩
  have lost : ReadBack (tryFrom Inventory.views Floats.bits _ (text "/a://b")) _ _ :=
    path_read (Loc.bare (text "/a://b")) (by decide) (Nat.lt_succ_self _)
  exact (recovers_iff lost).mp recovers (by decide)

/-- The url is written, and read back from its text however deep it lies. -/
def RoundTrips (inventory : Inventory) (floats : Floats) (url : Url) : Prop :=
  ∃ t, url.encode floats = some t ∧ (t.length < 2 ^ 64 → ∀ depth, t.length < depth →
    ∃ url', tryFrom inventory floats depth t = .ok url' ∧ SameUrl url' url)

private theorem RoundTrips.reads {inventory : Inventory} {floats : Floats} {url : Url}
    (trips : RoundTrips inventory floats url) : UrlReads inventory floats True url := by
  obtain ⟨t, written, reads⟩ := trips
  intro t' written' fits depth deep
  obtain rfl : t = t' := Option.some.inj (written.symm.trans written')
  obtain ⟨url', result, same⟩ := reads fits depth deep
  rw [result]
  exact iff_of_true same trivial

/-- Wire data whose urls are read back from their texts are read back from theirs, to the last
byte, and the text can stand inside a url. -/
theorem wire_read_back (inventory : Inventory) (floats : Floats) (w : Wire) (sound : w.Sound)
    (urls : w.Urls (RoundTrips inventory floats)) :
    ∃ t, w.encode floats = some t ∧ (t.length < 2 ^ 64 →
      ∃ w', Wire.decode inventory floats t = .ok w' ∧ SameWire w' w) ∧ ∀ b ∈ t, Clean b := by
  have texts : w.Urls (Written floats) :=
    WireOf.Urls.imp (fun _ trips => trips.imp fun _ both => both.1) w urls
  obtain ⟨t, written⟩ := WireOf.encode_of_urls floats w texts
  refine ⟨t, written, fun fits => ?_, WireOf.clean_encode floats w written⟩
  have reads := WireOf.Urls.imp (fun _ trips => trips.reads) w urls
  have all : w.Urls fun _ => True := WireOf.Urls.imp (fun _ _ => trivial) w urls
  have result := yields_run sound reads written fits (Nat.lt_succ_self _)
  rw [Wire.decode]
  cases run : Decoder.run (value inventory floats (t.length + 1)) t with
  | error e => exact absurd all (result.of_error run)
  | ok w' => exact ⟨w', rfl, (result.of_ok run).mpr all⟩

/-- A value of every kind. -/
def values : Wire :=
  .list (.cons .nil (.cons (.boolean true) (.cons (.integer (-5)) (.cons (.number ⟨0, by decide⟩)
    (.cons (.string (text "a/b")) (.cons (.id 7) (.cons (.url (Url.regular (text "/a b")))
      (.cons (.bytes [0xff, 0x25]) (.cons (.dict (.cons (.integer 3) .nil
        (.cons (.string (text "k")) (.list .nil) .nil))) .nil)))))))))

theorem wire_read_back_values :
    values.Sound ∧ ∃ t, values.encode Floats.bits = some t ∧ (t.length < 2 ^ 64 →
      ∃ w', Wire.decode Inventory.views Floats.bits t = .ok w' ∧ SameWire w' values) ∧
        ∀ b ∈ t, Clean b := by
  have ordered : values.Sound := by
    simp only [values, WireOf.Sound, WiresOf.Sound, DictOf.Sound, Wire.Keyed, Wire.keys]
    decide
  have trips : RoundTrips Inventory.views Floats.bits (Url.regular (text "/a b")) := by
    refine ⟨_, rfl, fun _ depth deep => ?_⟩
    obtain ⟨deeper, rfl⟩ := Nat.exists_eq_succ_of_ne_zero (Nat.ne_zero_of_lt deep)
    exact ⟨_, regular_encoded _ deeper, rfl⟩
  have urls : values.Urls (RoundTrips Inventory.views Floats.bits) :=
    ⟨trivial, trivial, trivial, trivial, trivial, trivial, trips, trivial, ⟨trivial, trivial, trivial⟩,
      trivial⟩
  exact ⟨ordered, wire_read_back _ _ values ordered urls⟩

end Yazi.Shared
