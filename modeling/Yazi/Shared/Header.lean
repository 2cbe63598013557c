import Yazi.Shared.WellFormed

/-!
What stands in front of a path is read back: the scheme, the domain, the ports, and what the
kind of the url adds.
-/
namespace Yazi.Shared

open Base (Yields)

/-! ### Splitting -/

theorem marker : text "://" = [0x3a, 0x2f, 0x2f] := by decide

/-- Without a colon in front, the first `://` is the one that was written. -/
theorem splitSeqOnce_append {lead : Bytes} (clean : 0x3a ∉ lead) (rest : Bytes) :
    splitSeqOnce (text "://") (lead ++ (text "://" ++ rest)) = some (lead, rest) := by
  induction lead with
  | nil =>
    rw [marker]
    simp [splitSeqOnce, List.isPrefixOf]
  | cons b lead ih =>
    have other : (0x3a : UInt8) ≠ b := fun same => clean (same ▸ List.mem_cons_self)
    have later : 0x3a ∉ lead := fun member => clean (List.mem_cons_of_mem _ member)
    have here : (text "://").isPrefixOf (b :: (lead ++ (text "://" ++ rest))) = false := by
      rw [marker]
      simp [List.isPrefixOf, other]
    rw [List.cons_append, splitSeqOnce, here, ih later]
    rfl

theorem splitSeqOnce_eq_none {sep : Bytes} (nonempty : sep ≠ []) {s : Bytes} :
    splitSeqOnce sep s = none ↔ ¬sep <:+: s := by
  induction s with
  | nil => simp [splitSeqOnce, nonempty]
  | cons b rest ih =>
    rw [splitSeqOnce, List.infix_cons_iff, not_or]
    split
    · next lead =>
      simp [List.isPrefixOf_iff_prefix.mp lead]
    · next other =>
      rw [Option.map_eq_none_iff, ih]
      simp [mt List.isPrefixOf_iff_prefix.mpr other]

theorem rsplitOnce_append {b : UInt8} {back : Bytes} (clean : b ∉ back) (front : Bytes) :
    rsplitOnce b (front ++ b :: back) = some (front, back) := by
  have tail : (front ++ b :: back).rtakeWhile (· != b) = back := by
    rw [List.rtakeWhile, List.reverse_append, List.reverse_cons, List.append_assoc]
    rw [List.takeWhile_append_of_pos (by simpa using fun c member => ne_of_mem_of_not_mem member clean)]
    simp
  have lead : (front ++ b :: back).rdropWhile (· != b) = front ++ [b] := by
    rw [List.rdropWhile, List.reverse_append, List.reverse_cons, List.append_assoc]
    rw [List.dropWhile_append_of_pos (by simpa using fun c member => ne_of_mem_of_not_mem member clean)]
    simp
  rw [rsplitOnce, if_pos (by simp), tail, lead, List.dropLast_concat]

theorem rsplitOnce_of_not_mem {b : UInt8} {s : Bytes} (clean : b ∉ s) : rsplitOnce b s = none :=
  if_neg clean

theorem splitSlash_append {lead : Bytes} (clean : Path.slash ∉ lead) (rest : Bytes) :
    splitSlash (lead ++ Path.slash :: rest) = (lead, rest) := by
  have pass : ∀ b ∈ lead, (b != Path.slash) = true := by
    intro b member
    simpa using ne_of_mem_of_not_mem member clean
  rw [splitSlash, List.takeWhile_append_of_pos pass, List.dropWhile_append_of_pos pass]
  simp

/-! ### Scheme -/

private theorem kebab_text (scheme : Scheme) : kebabCased scheme.asStr = true := by
  cases scheme with
  | regular => decide
  | sftp => decide
  | custom key => exact key.valid.2.2

private theorem clean_scheme (scheme : Scheme) :
    0x3a ∉ scheme.asStr ∧ Twiddle.tilde ∉ scheme.asStr ∧ Utf8.isUtf8 scheme.asStr = true := by
  have kebab := List.all_eq_true.mp (kebab_text scheme)
  refine ⟨?_, ?_, ?_⟩
  · intro member
    exact absurd (kebab _ member) (by decide)
  · intro member
    exact absurd (kebab _ member) (by decide)
  · rw [Utf8.isUtf8, List.all_eq_true]
    intro mark member
    have inside : mark.2 ∈ scheme.asStr := by
      rw [← Utf8.chunks_map_snd scheme.asStr]
      exact List.mem_map_of_mem member
    have ascii : ∀ b : UInt8, (0x30 ≤ b ∧ b ≤ 0x39) ∨ (0x61 ≤ b ∧ b ≤ 0x7a) ∨ b = 0x2d → b ≤ 0x7f :=
      forall_byte (by decide +kernel)
    exact Utf8.valid_of_ascii member (ascii _ (by simpa using kebab _ inside))

private theorem fromStr_asStr {scheme : Scheme} (proper : scheme.Proper) :
    Scheme.fromStr scheme.asStr = .ok scheme := by
  cases scheme with
  | regular => rfl
  | sftp => rfl
  | custom key =>
    rw [Scheme.fromStr, Scheme.asStr, if_neg proper.1, if_neg proper.2, dif_pos key.valid]

private theorem parsed_lead {scheme : Scheme} (proper : scheme.Proper) {lead : Bytes} {tilde : Bool}
    (clean : 0x3a ∉ lead) (strip : ParsedSpec.stripTilde lead = (scheme.asStr, tilde))
    (length : lead.length = scheme.asStr.length + tilde.toNat) (rest : Bytes) :
    ∃ parsed, ParsedSpec.parse (lead ++ (text "://" ++ rest)) = .ok parsed ∧
      parsed.scheme = scheme ∧ parsed.tilde = tilde ∧ parsed.rest = rest := by
  obtain ⟨-, -, utf8⟩ := clean_scheme scheme
  refine ⟨⟨lead ++ (text "://" ++ rest), 3 + scheme.asStr.length + tilde.toNat, scheme, tilde⟩,
    ?_, rfl, rfl, ?_⟩
  · simp only [ParsedSpec.parse, splitSeqOnce_append clean, strip, utf8, if_true,
      fromStr_asStr proper]
    rfl
  · have three : (text "://").length = 3 := by decide
    have skip : 3 + scheme.asStr.length + tilde.toNat = (lead ++ text "://").length := by
      rw [List.length_append, three]
      omega
    rw [ParsedSpec.rest, skip, ← List.append_assoc, List.drop_left]

/-- The scheme, with its tilde, is read back. -/
theorem parsed_scheme {scheme : Scheme} (proper : scheme.Proper) (tilde : Bool) (rest : Bytes) :
    ∃ parsed, ParsedSpec.parse
        (scheme.asStr ++ (if tilde then [Twiddle.tilde] else []) ++ (text "://" ++ rest)) = .ok parsed ∧
      parsed.scheme = scheme ∧ parsed.tilde = tilde ∧ parsed.rest = rest := by
  obtain ⟨colon, mark, -⟩ := clean_scheme scheme
  cases tilde with
  | true =>
    refine parsed_lead proper ?_ ?_ ?_ rest
    · simp only [if_true, List.mem_append, List.mem_singleton, not_or]
      exact ⟨colon, by decide⟩
    · simp [ParsedSpec.stripTilde]
    · simp
  | false =>
    refine parsed_lead proper ?_ ?_ ?_ rest
    · simpa using colon
    · rw [if_neg Bool.false_ne_true, List.append_nil]
      exact if_neg fun last => mark (List.mem_of_getLast? last)
    · simp

/-! ### Domain and ports -/

namespace Spec

/-- A port that is left out where it has its default. -/
def portOption (port default : Nat) : Option Nat := if port = default then none else some port

/-- The port that is left out for this kind and path. -/
def portDefault (kind : AuthKind) (path : Bytes) : Nat :=
  match kind with
  | .regular | .view | .mount => 0
  | .hub | .scope | .sftp => (Path.name path).isSome.toNat

private theorem decodePort_write {n : Nat} (bound : n < 2 ^ 64) :
    decodePort (Decimal.write n) = .ok (some n) := by
  rw [decodePort, if_neg (Decimal.write_ne_nil n), Decimal.parse_write bound]
  rfl

private theorem not_mem_write {n : Nat} {b : UInt8} (other : Decimal.isDigit b = false) :
    b ∉ Decimal.write n := by
  intro member
  rw [Decimal.isDigit_of_mem_write member] at other
  cases other

/-- Each of the four ways to write the ports is read back. -/
theorem decodePorts_portsText {domain : Bytes} (clean : 0x3a ∉ domain) {uri urn : Nat}
    (first : uri < 2 ^ 64) (second : urn < 2 ^ 64) (default : Nat) :
    decodePorts (domain ++ portsText uri urn default) =
      .ok (portOption uri default, portOption urn default, domain) := by
  have colon : ∀ n, 0x3a ∉ Decimal.write n := fun n => not_mem_write (by decide)
  by_cases noUri : uri = default <;> by_cases noUrn : urn = default
  · simp only [portsText, noUri, noUrn, ne_eq, not_true, decide_false, List.append_nil, decodePorts,
      rsplitOnce_of_not_mem clean, portOption, if_true]
  · have split := rsplitOnce_append (colon urn) (domain ++ [0x3a])
    have split' : rsplitOnce 0x3a (domain ++ [0x3a]) = some (domain, []) :=
      rsplitOnce_append (by simp) domain
    simp only [portsText, noUri, noUrn, ne_eq, not_true, not_false_eq_true, decide_false, decide_true,
      decodePorts, portOption, if_true, if_false, List.append_assoc, List.cons_append,
      List.nil_append] at split ⊢
    have empty : decodePort [] = .ok none := rfl
    simp only [split, decodePort_write second, split', empty]
    rfl
  · have split := rsplitOnce_append (colon uri) domain
    simp only [portsText, noUri, noUrn, ne_eq, not_true, not_false_eq_true, decide_false, decide_true,
      decodePorts, portOption, if_true, if_false, List.cons_append, List.nil_append]
    simp only [split, decodePort_write first, rsplitOnce_of_not_mem clean]
    rfl
  · have split := rsplitOnce_append (colon urn) (domain ++ 0x3a :: Decimal.write uri)
    have split' := rsplitOnce_append (colon uri) domain
    simp only [portsText, noUri, noUrn, ne_eq, not_false_eq_true, decide_true, decodePorts,
      portOption, if_false, List.append_assoc, List.cons_append, List.nil_append] at split ⊢
    simp only [split, decodePort_write second, split', decodePort_write first]
    rfl

theorem encodePorts_eq {kind : AuthKind} (other : kind ≠ .regular) (loc : Loc) :
    encodePorts kind loc =
      portsText (ports loc).1 (ports loc).2 (portDefault kind loc.inner) := by
  cases kind with
  | regular => exact absurd rfl other
  | _ => rfl

private theorem slash_not_mem_portsText (uri urn default : Nat) :
    Path.slash ∉ portsText uri urn default := by
  have digits : ∀ n, Path.slash ∉ Decimal.write n := fun n => not_mem_write (by decide)
  have colon : Path.slash ≠ 0x3a := by decide
  simp only [portsText]
  split <;> simp [digits, colon]

/-- The ports that were left out are found again. -/
theorem normalizePorts_portOption {kind : AuthKind} (other : kind ≠ .regular) {uri urn : Nat}
    (order : urn ≤ uri) (path : PathDyn) :
    normalizePorts kind (portOption uri (portDefault kind path.bytes))
      (portOption urn (portDefault kind path.bytes)) path = .ok (uri, urn) := by
  have found : ∀ port default, (portOption port default).getD default = port := by
    intro port default
    simp only [portOption]
    split
    · next same => exact same.symm
    · rfl
  cases kind with
  | regular => exact absurd rfl other
  | view =>
    simp only [normalizePorts, portDefault, found, ensure, order, if_true]
    rfl
  | _ => simp only [normalizePorts, portDefault, found]

/-- The part before the path, up to what the kind adds. -/
theorem parseWith_encodeAuth {inventory : Inventory} {kind : AuthKind} {scheme : Scheme}
    {domain : Bytes} (registered : Registered inventory kind scheme domain)
    (other : kind ≠ .regular) {loc : Loc} (first : (ports loc).1 < 2 ^ 64)
    (second : (ports loc).2 < 2 ^ 64) (wire : Bytes → Except Error Wire)
    (parse : Bytes → Except Error (Spec × PathDyn)) (tilde : Bool) (rest : Bytes) :
    parseWith inventory wire parse
        (encodeAuth tilde scheme domain ++ encodePorts kind loc ++ Path.slash :: rest) =
      (decodeKind wire parse (.mk kind scheme domain .none .none) tilde rest >>= fun (path, auth) =>
        normalizePorts auth.kind (portOption (ports loc).1 (portDefault kind loc.inner))
            (portOption (ports loc).2 (portDefault kind loc.inner)) path >>= fun (uri, urn) =>
          .ok (⟨auth, uri, urn⟩, path)) := by
  obtain ⟨proper, -, found⟩ := registered
  have named : scheme ≠ .regular := by
    rintro rfl
    cases found
    exact other rfl
  obtain ⟨parsed, header, isScheme, isTilde, isRest⟩ := parsed_scheme proper tilde
    (Percent.encodeDomain Percent.domainSet domain ++ (encodePorts kind loc ++ Path.slash :: rest))
  have text : encodeAuth tilde scheme domain ++ encodePorts kind loc ++ Path.slash :: rest =
      scheme.asStr ++ (if tilde then [Twiddle.tilde] else []) ++ (text "://" ++
        (Percent.encodeDomain Percent.domainSet domain ++
          (encodePorts kind loc ++ Path.slash :: rest))) := by
    simp only [encodeAuth, List.append_assoc]
  have colon : 0x3a ∉ Percent.encodeDomain Percent.domainSet domain :=
    Percent.not_mem_encodeDomain (by decide) (by decide) (by decide) (by decide) domain
  have slash : Path.slash ∉ Percent.encodeDomain Percent.domainSet domain ++ encodePorts kind loc := by
    rw [encodePorts_eq other, List.mem_append, not_or]
    exact ⟨Percent.not_mem_encodeDomain (by decide) (by decide) (by decide) (by decide) domain,
      slash_not_mem_portsText _ _ _⟩
  have param : decodeDomain parsed = .ok (domain, portOption (ports loc).1 (portDefault kind loc.inner),
      portOption (ports loc).2 (portDefault kind loc.inner), rest) := by
    have toParam : decodeDomain parsed = decodeParam parsed.rest := by
      simp only [decodeDomain, isScheme]
    rw [toParam, isRest, decodeParam, ← List.append_assoc, splitSlash_append slash,
      encodePorts_eq other]
    simp only [decodePorts_portsText colon first second]
    change Except.ok _ = _
    rw [Percent.decode_encodeDomain (by decide)]
  rw [text, parseWith, header]
  change (decodeDomain parsed >>= _) = _
  rw [param]
  change (getAuth inventory parsed.scheme domain >>= _) = _
  rw [isScheme, found]
  change (decodeKind wire parse _ parsed.tilde rest >>= _) = _
  rw [isTilde]

/-! ### Kinds -/

theorem encodePath_append (tilde : Bool) (a b : Bytes) :
    encodePath tilde (a ++ b) = encodePath tilde a ++ encodePath tilde b := by
  cases tilde with
  | false => rfl
  | true => exact List.flatMap_append

@[simp] theorem decodePath_encodePath (kind : PathKind) (tilde : Bool) (path : Bytes) :
    decodePath kind tilde (encodePath tilde path) = ⟨kind, path⟩ := by
  cases tilde with
  | false => rfl
  | true =>
    have whole : Percent.decode (Percent.encode Percent.pathSet path) = path :=
      Percent.decode_encode (by decide) path
    simp only [decodePath, encodePath, if_true, whole]

theorem decodeMeta_append (marker delimiter : String) {lead : Bytes} (clean : Path.slash ∉ lead)
    (rest : Bytes) :
    decodeMeta marker delimiter (0x40 :: (lead ++ Path.slash :: rest)) = .ok (lead, rest) := by
  simp [decodeMeta, splitSlash_append clean]

private theorem clean_domains (domains : List Bytes) :
    Path.slash ∉ [0x2c].intercalate (domains.map (Percent.encodeDomain Percent.parentSet)) := by
  have each : ∀ d, Path.slash ∉ Percent.encodeDomain Percent.parentSet d := fun d =>
    Percent.not_mem_encodeDomain (by decide) (by decide) (by decide) (by decide) d
  have comma : Path.slash ≠ 0x2c := by decide
  induction domains with
  | nil => simp [List.intercalate]
  | cons d ds ih =>
    cases ds with
    | nil => simpa [List.intercalate] using each d
    | cons d' ds =>
      simp only [List.intercalate, List.map_cons, List.intersperse_cons_cons, List.flatten_cons,
        List.mem_append, List.mem_singleton, not_or] at ih ⊢
      exact ⟨each d, comma, ih⟩

/-- The authorities above a hub are read back from their domains. -/
private theorem decodeParents_domains {kind : AuthKind} {scheme : Scheme} (domain : Bytes) :
    ∀ {n : Nat} (parent : Parent), parent.Chain kind scheme n →
      parent.domains.length = n ∧
        decodeParents (.mk kind scheme domain .none .none)
          (parent.domains.map (Percent.encodeDomain Percent.parentSet)) = parent
  | 0, .none, _ => ⟨rfl, rfl⟩
  | n + 1, .none, chain => False.elim chain
  | 0, .some (.mk ..), chain => False.elim chain
  | n + 1, .some (.mk kind' scheme' domain' parent view), chain => by
    obtain ⟨rfl, rfl, rfl, above⟩ := chain
    obtain ⟨length, same⟩ := decodeParents_domains domain parent above
    refine ⟨by simp [ParentOf.domains, length], ?_⟩
    simp only [ParentOf.domains, List.map_cons, decodeParents, List.foldr_cons] at same ⊢
    rw [same, Percent.decode_encodeDomain (by decide)]
    rfl

theorem decodeHub_domains {scheme : Scheme} {domain : Bytes} {parent : Parent} {path : Bytes}
    (chain : parent.Chain .hub scheme (Path.authDepth path)) (tilde : Bool) :
    decodeHub (.mk .hub scheme domain .none .none) tilde
        (0x40 :: ([0x2c].intercalate (parent.domains.map (Percent.encodeDomain Percent.parentSet)) ++
          Path.slash :: encodePath tilde path)) =
      .ok (⟨.os, path⟩, .mk .hub scheme domain parent .none) := by
  obtain ⟨length, same⟩ := decodeParents_domains domain parent chain
  rw [decodeHub, decodeMeta_append _ _ (clean_domains _)]
  change (if Path.authDepth (decodePath .os tilde (encodePath tilde path)).bytes = 0 then _ else _) = _
  rw [decodePath_encodePath]
  by_cases top : Path.authDepth path = 0
  · rw [if_pos top]
    rw [top] at length
    have none : parent.domains = [] := List.eq_nil_of_length_eq_zero length
    rw [none] at same ⊢
    obtain rfl : ParentOf.none = parent := same
    rfl
  · rw [if_neg top]
    have comma : ∀ d ∈ parent.domains.map (Percent.encodeDomain Percent.parentSet), 0x2c ∉ d := by
      intro d member
      obtain ⟨d, -, rfl⟩ := List.mem_map.mp member
      exact Percent.not_mem_encodeDomain (by decide) (by decide) (by decide) (by decide) d
    have some : parent.domains.map (Percent.encodeDomain Percent.parentSet) ≠ [] := by
      intro none
      exact top (by rw [← length, List.map_eq_nil_iff.mp none]; rfl)
    have count : (parent.domains.map (Percent.encodeDomain Percent.parentSet)).length =
        Path.authDepth path := by
      rw [List.length_map, length]
    simp only [List.splitOn_intercalate 0x2c comma some, ensure, count, if_true, same]
    rfl

/-- The metadata of a view are read without escapes. -/
theorem decodeView_append {wire : Bytes → Except Error Wire}
    {parse : Bytes → Except Error (Spec × PathDyn)} (auth : Auth) (tilde : Bool) {data : Bytes}
    (clean : ∀ b ∈ data, b ≠ Path.slash ∧ b ≠ Percent.percent) (rest : Bytes) :
    decodeView wire parse auth tilde (0x40 :: (data ++ Path.slash :: encodePath tilde rest)) =
      (wire data >>= fun data => parse rest >>= fun (source, path) =>
        Error.ofText (auth.withView (.some source.auth data)).validate >>= fun _ =>
          .ok (path, auth.withView (.some source.auth data))) := by
  have slash : Path.slash ∉ data := fun member => (clean _ member).1 rfl
  have plain : Percent.decode data = data := by
    have all : ∀ s : Bytes, (∀ b ∈ s, b ≠ Percent.percent) → Percent.decode s = s := by
      intro s clean
      induction s with
      | nil => rfl
      | cons b rest ih =>
        rw [Percent.decode_cons (clean b List.mem_cons_self),
          ih fun c member => clean c (List.mem_cons_of_mem _ member)]
    exact all data fun b member => (clean b member).2
  have body : (if tilde then Percent.decode (encodePath tilde rest) else encodePath tilde rest) =
      rest := by
    have path := congrArg PathDyn.bytes (decodePath_encodePath .os tilde rest)
    exact path
  rw [decodeView, decodeMeta_append _ _ slash]
  change (wire (Percent.decode data) >>= _) = _
  rw [plain]
  simp only [body]

/-! ### Urls -/

/-- A regular text is read as the path behind its scheme. -/
theorem parseWith_regular {inventory : Inventory} {wire : Bytes → Except Error Wire}
    {parse : Bytes → Except Error (Spec × PathDyn)} {s : Bytes} {parsed : ParsedSpec}
    (header : ParsedSpec.parse s = .ok parsed) (scheme : parsed.scheme = .regular) :
    ∃ name, parseWith inventory wire parse s =
      .ok (⟨AuthOf.default, name, name⟩, decodePath .os parsed.tilde parsed.rest) := by
  refine ⟨(Path.name (decodePath .os parsed.tilde parsed.rest).bytes).isSome.toNat, ?_⟩
  rw [parseWith, header]
  change (decodeDomain parsed >>= _) = _
  have domain : decodeDomain parsed = .ok ([], none, none, parsed.rest) := by
    rw [decodeDomain, scheme]
  rw [domain, scheme]
  rfl

theorem parsed_path {path : Bytes} (plain : ¬text "://" <:+: path) :
    ParsedSpec.parse path = .ok ⟨path, 0, .regular, false⟩ := by
  have none := (splitSeqOnce_eq_none (by decide)).mpr plain
  rw [ParsedSpec.parse, none]

theorem toUrl_default (name : Nat) (path : Bytes) :
    toUrl ⟨AuthOf.default, name, name⟩ ⟨.os, path⟩ = .ok (.os (Loc.bare path) AuthOf.default) := rfl

/-- Any url that is not regular keeps its location. -/
theorem toUrl_withPorts {auth : Auth} {kind : PathKind} {loc : Loc} {uri urn : Nat}
    (valid : auth.validate = .ok ()) (paths : auth.pathKind = .ok kind) (other : auth.kind ≠ .regular)
    (depth : auth.kind = .hub → auth.parentDepth = Path.authDepth loc.inner)
    (admits : Loc.withPorts loc.inner uri urn = .ok loc) :
    toUrl ⟨auth, uri, urn⟩ ⟨kind, loc.inner⟩ =
      .ok (match kind with | .os => .os loc auth | .unix => .unix loc auth) := by
  have checked : validateAuthPath auth ⟨kind, loc.inner⟩ = .ok () := by
    have same : ensure (kind = kind) "URL path kind does not match Auth kind" = .ok () := if_pos rfl
    rw [validateAuthPath, valid, paths]
    change (ensure (kind = kind) _ >>= _) = _
    rw [same]
    change (if auth.kind = .hub then _ else _) = _
    split
    · next hub => exact if_pos (depth hub)
    · rfl
  have irregular : auth.isRegular = false := decide_eq_false other
  rw [toUrl, checked]
  cases kind with
  | os =>
    simp only [irregular, admits]
    rfl
  | unix =>
    simp only [admits]
    rfl

/-- The url has the path it was read with, without what follows the last component. -/
theorem inner_toUrl {spec : Spec} {path : PathDyn} {url : Url} (made : toUrl spec path = .ok url) :
    url.loc.inner = Path.trim path.bytes := by
  have shape : Yields (toUrl spec path) (fun _ => True) fun url =>
      url.loc.inner = Path.trim path.bytes := by
    have any : ∀ {α : Type} (x : Except Error α), Yields x (fun _ => True) fun _ => True := by
      intro α x
      cases x <;> trivial
    have located : ∀ make : Loc → Url, (∀ loc, (make loc).loc = loc) →
        Yields (Error.ofText (Loc.withPorts path.bytes spec.uri spec.urn) >>= fun loc =>
          .ok (make loc)) (fun _ => True) fun url => url.loc.inner = Path.trim path.bytes := by
      intro make keeps
      cases result : Loc.withPorts path.bytes spec.uri spec.urn with
      | error e => trivial
      | ok loc =>
        change (make loc).loc.inner = _
        rw [keeps, Loc.inner_withPorts result]
    refine (any _).bind fun _ _ => ?_
    split
    · split
      · rfl
      · exact located (.os · spec.auth) fun _ => rfl
    · exact located (.unix · spec.auth) fun _ => rfl
  exact shape.of_ok made

end Spec

end Yazi.Shared
