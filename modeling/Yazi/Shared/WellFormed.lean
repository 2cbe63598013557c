import Yazi.Shared.Decode

/-!
The urls a program holds, and those among them whose text says what they are.

A view writes no scheme for a regular source, so the path of the source stands in the text
alone. If it holds `://` it looks like a url of its own.
-/
namespace Yazi.Shared

/-- The name of the scheme is not that of another one. -/
def Scheme.Proper : Scheme → Prop
  | .regular | .sftp => True
  | .custom key => key.text ≠ text "regular" ∧ key.text ≠ text "sftp"

/-- The authority is registered under its scheme and domain. Nothing else is registered as
regular than the regular scheme. -/
def Registered (inventory : Inventory) (kind : AuthKind) (scheme : Scheme) (domain : Bytes) : Prop :=
  scheme.Proper ∧ (kind = .regular → scheme = .regular) ∧
    getAuth inventory scheme domain = .ok (.mk kind scheme domain .none .none)

/-- The location is one that ports give. -/
def Loc.Admitted (loc : Loc) : Prop := ∃ uri urn, Loc.withPorts loc.inner uri urn = .ok loc

/-- So many authorities of this service, one above the other. -/
def ParentOf.Chain (kind : AuthKind) (scheme : Scheme) : Parent → Nat → Prop
  | .none, 0 => True
  | .some (.mk kind' scheme' _ parent view), n + 1 =>
    kind' = kind ∧ scheme' = scheme ∧ view = .none ∧ parent.Chain kind scheme n
  | _, _ => False

def Wire.keys : Dict → List WireKey
  | .nil => []
  | .cons key _ rest => key :: keys rest

/-- A key that is a text is valid. -/
def Wire.validKey : WireKey → Bool
  | .integer _ => true
  | .string s => Utf8.isUtf8 s

/-- The keys of a map: distinct, in order, and valid. -/
def Wire.Keyed (entries : Dict) : Prop :=
  (keys entries).Pairwise (Decoder.WireKey.less · · = true) ∧
    ∀ key ∈ keys entries, validKey key = true

section wellFormed
variable (inventory : Inventory)

mutual

/-- The authority of a url with this path. A hub has an authority above for every component. -/
def AuthOf.WellFormed : Auth → Bytes → Prop
  | .mk kind scheme domain parent view, path =>
    Registered inventory kind scheme domain ∧
      parent.Chain kind scheme (if kind = .hub then Path.authDepth path else 0) ∧
      view.WellFormed kind path

/-- A view, and nothing else, shows a regular source or a remote one. -/
def ViewBoxOf.WellFormed : ViewBox → AuthKind → Bytes → Prop
  | .none, kind, _ => kind ≠ .view
  | .some source data, kind, path =>
    kind = .view ∧ (source.kind = .regular ∨ source.kind = .sftp) ∧ source.WellFormed path ∧
      data.WellFormed

def WireOf.WellFormed : Wire → Prop
  | .string s => Utf8.isUtf8 s = true
  | .list values => values.WellFormed
  | .dict entries => entries.WellFormed ∧ Wire.Keyed entries
  | .url url => url.WellFormed
  | .nil | .boolean _ | .integer _ | .number _ | .id _ | .bytes _ => True

def WiresOf.WellFormed : Wires → Prop
  | .nil => True
  | .cons value rest => value.WellFormed ∧ rest.WellFormed

def DictOf.WellFormed : Dict → Prop
  | .nil => True
  | .cons _ value rest => value.WellFormed ∧ rest.WellFormed

/-- The ports of a regular url follow from its path, those of any other are its own. -/
def UrlOf.WellFormed : Url → Prop
  | .os loc auth =>
    auth.WellFormed loc.inner ∧ auth.pathKind = .ok .os ∧ (auth.kind ≠ .regular → loc.Admitted)
  | .unix loc auth =>
    auth.WellFormed loc.inner ∧ auth.pathKind = .ok .unix ∧ (auth.kind ≠ .regular → loc.Admitted)

end

end wellFormed

mutual

/-- No view of a regular source has a path with `://`, neither the url itself nor any in the
data of views. -/
def AuthOf.Plain : Auth → Bytes → Prop
  | .mk _ _ _ _ view, path => view.Plain path

def ViewBoxOf.Plain : ViewBox → Bytes → Prop
  | .none, _ => True
  | .some source data, path => (source.kind = .regular → ¬text "://" <:+: path) ∧ data.Plain

def WireOf.Plain : Wire → Prop
  | .list values => values.Plain
  | .dict entries => entries.Plain
  | .url url => url.Plain
  | .nil | .boolean _ | .integer _ | .number _ | .string _ | .id _ | .bytes _ => True

def WiresOf.Plain : Wires → Prop
  | .nil => True
  | .cons value rest => value.Plain ∧ rest.Plain

def DictOf.Plain : Dict → Prop
  | .nil => True
  | .cons _ value rest => value.Plain ∧ rest.Plain

def UrlOf.Plain : Url → Prop
  | .os loc auth => auth.Plain loc.inner
  | .unix loc auth => auth.Plain loc.inner

end

mutual

/-- Every url in the data, outside of other urls, has `P`. -/
def WireOf.Urls (P : Url → Prop) : Wire → Prop
  | .list values => values.Urls P
  | .dict entries => entries.Urls P
  | .url url => P url
  | .nil | .boolean _ | .integer _ | .number _ | .string _ | .id _ | .bytes _ => True

def WiresOf.Urls (P : Url → Prop) : Wires → Prop
  | .nil => True
  | .cons value rest => value.Urls P ∧ rest.Urls P

def DictOf.Urls (P : Url → Prop) : Dict → Prop
  | .nil => True
  | .cons _ value rest => value.Urls P ∧ rest.Urls P

end

mutual

theorem WireOf.Urls.imp {P Q : Url → Prop} (less : ∀ url, P url → Q url) :
    (w : Wire) → w.Urls P → w.Urls Q
  | .list values, urls => WiresOf.Urls.imp less values urls
  | .dict entries, urls => DictOf.Urls.imp less entries urls
  | .url url, holds => less url holds
  | .nil, _ | .boolean _, _ | .integer _, _ | .number _, _ | .string _, _ | .id _, _
  | .bytes _, _ => trivial

theorem WiresOf.Urls.imp {P Q : Url → Prop} (less : ∀ url, P url → Q url) :
    (ws : Wires) → ws.Urls P → ws.Urls Q
  | .nil, _ => trivial
  | .cons value rest, urls =>
    ⟨WireOf.Urls.imp less value urls.1, WiresOf.Urls.imp less rest urls.2⟩

theorem DictOf.Urls.imp {P Q : Url → Prop} (less : ∀ url, P url → Q url) :
    (es : Dict) → es.Urls P → es.Urls Q
  | .nil, _ => trivial
  | .cons _ value rest, urls =>
    ⟨WireOf.Urls.imp less value urls.1, DictOf.Urls.imp less rest urls.2⟩

end

/-- The ports of an admitted location are those that give it. -/
theorem Loc.Admitted.withPorts {loc : Loc} (admitted : loc.Admitted) :
    Loc.withPorts loc.inner (Spec.ports loc).1 (Spec.ports loc).2 = .ok loc := by
  obtain ⟨uri, urn, admits⟩ := admitted
  obtain ⟨first, second⟩ := Loc.length_withPorts admits
  rw [Spec.ports, first, second, admits]

/-- What the ports admit at any spelling of a path is admitted. -/
theorem Loc.admitted_of_withPorts {p : Bytes} {uri urn : Nat} {loc : Loc}
    (admits : Loc.withPorts p uri urn = .ok loc) : loc.Admitted := by
  refine ⟨uri, urn, ?_⟩
  rw [Loc.inner_withPorts admits, Loc.withPorts_trim, admits]

/-- The source of a view, as the base of the url shows it. -/
theorem physical_base {url : Url} (view : url.kind = .view) {source : Auth} {data : Wire}
    (shows : url.auth.view = .some source data) :
    url.base.map Url.physical = some (url.rebuild (sourceLoc url.loc) source) := by
  cases url with
  | os loc auth =>
    have kind : auth.kind = .view := view
    have shown : auth.view = .some source data := shows
    simp [Url.base, kind, Url.physical, Url.auth, shown, Url.rebuild, sourceLoc, Url.loc]
  | unix loc auth =>
    have kind : auth.kind = .view := view
    have shown : auth.view = .some source data := shows
    simp [Url.base, kind, Url.physical, Url.auth, shown, Url.rebuild, sourceLoc, Url.loc]

section total
variable {inventory : Inventory} (floats : Floats)

private theorem encodePrefix_total {kind : AuthKind} (parent : Parent) {data : Option Bytes}
    (present : kind = .view → ∃ t, data = some t) : ∃ t, encodePrefix kind parent data = some t := by
  cases kind with
  | view =>
    obtain ⟨t, rfl⟩ := present rfl
    exact ⟨_, rfl⟩
  | _ => exact ⟨_, rfl⟩

/-- The url is written. -/
def Written (url : Url) : Prop := ∃ t, url.encode floats = some t

mutual

/-- Wire data are written if the urls in them are. -/
theorem WireOf.encode_of_urls : (w : Wire) → w.Urls (Written floats) →
    ∃ t, w.encode floats = some t
  | .nil, _ => ⟨_, rfl⟩
  | .boolean _, _ => ⟨_, rfl⟩
  | .integer _, _ => ⟨_, rfl⟩
  | .number _, _ => ⟨_, rfl⟩
  | .string _, _ => ⟨_, rfl⟩
  | .list values, urls => by
    obtain ⟨t, written⟩ := WiresOf.encode_of_urls values urls
    exact ⟨_, by rw [WireOf.encode, written]; rfl⟩
  | .dict entries, urls => by
    obtain ⟨t, written⟩ := DictOf.encode_of_urls entries urls
    exact ⟨_, by rw [WireOf.encode, written]; rfl⟩
  | .id _, _ => ⟨_, rfl⟩
  | .url _, ⟨t, written⟩ => ⟨_, by rw [WireOf.encode, written]; rfl⟩
  | .bytes _, _ => ⟨_, rfl⟩

theorem WiresOf.encode_of_urls : (ws : Wires) → ws.Urls (Written floats) →
    ∃ t, ws.encode floats = some t
  | .nil, _ => ⟨_, rfl⟩
  | .cons value rest, urls => by
    obtain ⟨t, written⟩ := WireOf.encode_of_urls value urls.1
    obtain ⟨t', written'⟩ := WiresOf.encode_of_urls rest urls.2
    exact ⟨_, by rw [WiresOf.encode, written, written']; rfl⟩

theorem DictOf.encode_of_urls : (es : Dict) → es.Urls (Written floats) →
    ∃ t, es.encode floats = some t
  | .nil, _ => ⟨_, rfl⟩
  | .cons _ value rest, urls => by
    obtain ⟨t, written⟩ := WireOf.encode_of_urls value urls.1
    obtain ⟨t', written'⟩ := DictOf.encode_of_urls rest urls.2
    exact ⟨_, by rw [DictOf.encode, written, written']; rfl⟩

end

-- Writing fails for a view without metadata only, and there is none.
mutual

theorem AuthOf.encodeSpec_total : (auth : Auth) → (path : Bytes) →
    auth.WellFormed inventory path → (loc : Loc) → ∃ t, auth.encodeSpec floats loc = some t
  | .mk kind scheme domain parent view, path, wellFormed, loc => by
    obtain ⟨lead, written⟩ := encodePrefix_total parent
      (ViewBoxOf.encodeData_total view kind path wellFormed.2.2)
    obtain ⟨source, shown⟩ := ViewBoxOf.encodeSource_total view kind path wellFormed.2.2 loc
    rw [AuthOf.encodeSpec, written, shown]
    exact ⟨_, rfl⟩

theorem ViewBoxOf.encodeData_total : (view : ViewBox) → (kind : AuthKind) → (path : Bytes) →
    view.WellFormed inventory kind path → kind = .view → ∃ t, view.encodeData floats = some t
  | .none, _, _, wellFormed, isView => absurd isView wellFormed
  | .some _ data, _, _, wellFormed, _ =>
    WireOf.encode_of_urls floats data (WireOf.written data wellFormed.2.2.2)

theorem ViewBoxOf.encodeSource_total : (view : ViewBox) → (kind : AuthKind) → (path : Bytes) →
    view.WellFormed inventory kind path → (loc : Loc) →
    ∃ t, view.encodeSource floats kind loc = some t
  | .none, _, _, wellFormed, _ => by
    rw [ViewBoxOf.encodeSource, if_neg wellFormed]
    exact ⟨_, rfl⟩
  | .some source _, _, path, wellFormed, loc => by
    rw [ViewBoxOf.encodeSource, if_pos wellFormed.1]
    split
    · exact ⟨_, rfl⟩
    · exact AuthOf.encodeSpec_total source path wellFormed.2.2.1 _

theorem WireOf.written : (w : Wire) → w.WellFormed inventory → w.Urls (Written floats)
  | .list values, wellFormed => WiresOf.written values wellFormed
  | .dict entries, wellFormed => DictOf.written entries wellFormed.1
  | .url url, wellFormed => UrlOf.encode_total url wellFormed
  | .nil, _ | .boolean _, _ | .integer _, _ | .number _, _ | .string _, _ | .id _, _
  | .bytes _, _ => trivial

theorem WiresOf.written : (ws : Wires) → ws.WellFormed inventory → ws.Urls (Written floats)
  | .nil, _ => trivial
  | .cons value rest, wellFormed =>
    ⟨WireOf.written value wellFormed.1, WiresOf.written rest wellFormed.2⟩

theorem DictOf.written : (es : Dict) → es.WellFormed inventory → es.Urls (Written floats)
  | .nil, _ => trivial
  | .cons _ value rest, wellFormed =>
    ⟨WireOf.written value wellFormed.1, DictOf.written rest wellFormed.2⟩

theorem AuthOf.encodeAt_total : (auth : Auth) → (path : Bytes) →
    auth.WellFormed inventory path → (loc : Loc) → ∃ t, auth.encodeAt floats loc = some t
  | .mk kind scheme domain parent view, path, wellFormed, loc => by
    rw [AuthOf.encodeAt]
    split
    · exact ⟨_, rfl⟩
    · obtain ⟨lead, written⟩ := encodePrefix_total parent
        (ViewBoxOf.encodeData_total view kind path wellFormed.2.2)
      obtain ⟨source, shown⟩ := ViewBoxOf.encodeSource_total view kind path wellFormed.2.2 loc
      rw [written, shown]
      exact ⟨_, rfl⟩

/-- Every well-formed url is written. -/
theorem UrlOf.encode_total : (url : Url) → url.WellFormed inventory →
    ∃ t, url.encode floats = some t
  | .os loc auth, wellFormed => AuthOf.encodeAt_total auth _ wellFormed.1 loc
  | .unix loc auth, wellFormed => AuthOf.encodeAt_total auth _ wellFormed.1 loc

end

end total

end Yazi.Shared
