import Yazi.Shared.Decode

/-!
Readers end: what is nested is shorter, so a text is never too deep for its length. The path
of a url is never longer than the text it is read from, and shorter behind a scheme.
-/
namespace Yazi.Shared

open Base (Yields)
open Base.Reader (Tame)

/-! ### Splitting -/

theorem splitSeqOnce_length {sep s before after : Bytes}
    (split : splitSeqOnce sep s = some (before, after)) :
    s.length = before.length + sep.length + after.length := by
  induction s generalizing before with
  | nil =>
    simp only [splitSeqOnce] at split
    split at split <;> cases split
    next none => simp [none]
  | cons b rest ih =>
    simp only [splitSeqOnce] at split
    split at split
    · next lead =>
      cases split
      have short := (List.isPrefixOf_iff_prefix.mp lead).length_le
      rw [List.length_drop]
      simp only [List.length_nil]
      omega
    · obtain ⟨⟨lead, after'⟩, found, same⟩ := Option.map_eq_some_iff.mp split
      cases same
      have shorter := ih found
      simp only [List.length_cons] at shorter ⊢
      omega

theorem splitSlash_length (s : Bytes) : (splitSlash s).2.length ≤ s.length := by
  have whole := congrArg List.length (List.takeWhile_append_dropWhile (p := (· != Path.slash)) (l := s))
  rw [List.length_append] at whole
  simp only [splitSlash, List.length_drop]
  omega

/-! ### Errors -/

private theorem ensure_tame (condition : Prop) [Decidable condition] (message : String) :
    Yields (ensure condition message) (· ≠ .depth) fun _ => True := by
  simp only [ensure]
  split
  · trivial
  · exact Error.noConfusion

private theorem ofText_tame {α : Type} (x : Except String α) :
    Yields (Error.ofText x) (· ≠ .depth) fun _ => True := by
  cases x with
  | error message => exact Error.noConfusion
  | ok a => trivial

private theorem parse_tame (s : Bytes) :
    Yields (Decimal.parse s) (· ≠ .depth) fun _ => True := by
  simp only [Decimal.parse]
  split
  · simp only [Decimal.read]
    split
    · exact Error.noConfusion
    · split
      · trivial
      · exact Error.noConfusion
  · exact Error.noConfusion

private theorem decodePort_tame (s : Bytes) :
    Yields (Spec.decodePort s) (· ≠ .depth) fun _ => True := by
  simp only [Spec.decodePort]
  split
  · trivial
  · have parses := parse_tame s
    cases result : Decimal.parse s with
    | error e => exact parses.of_error result
    | ok n => trivial

private theorem decodePorts_tame (s : Bytes) :
    Yields (Spec.decodePorts s) (· ≠ .depth) fun _ => True := by
  simp only [Spec.decodePorts]
  split
  · trivial
  · refine (decodePort_tame _).bind fun a _ => ?_
    split
    · trivial
    · exact (decodePort_tame _).bind fun b _ => trivial

private theorem fromStr_tame (s : Bytes) :
    Yields (Scheme.fromStr s) (· ≠ .depth) fun scheme => scheme.asStr.length = s.length := by
  simp only [Scheme.fromStr]
  split
  · next same =>
    subst same
    rfl
  · split
    · next same =>
      subst same
      rfl
    · split
      · rfl
      · exact Error.noConfusion

/-- Behind a scheme less is left. -/
private theorem parsed_tame (s : Bytes) :
    Yields (ParsedSpec.parse s) (· ≠ .depth) fun parsed =>
      parsed.rest.length ≤ s.length ∧
        (splitSeqOnce (text "://") s ≠ none → parsed.rest.length < s.length) := by
  simp only [ParsedSpec.parse]
  cases split : splitSeqOnce (text "://") s with
  | none => exact ⟨Nat.le_refl _, fun some => absurd rfl some⟩
  | some parts =>
    obtain ⟨before, after⟩ := parts
    have length := splitSeqOnce_length split
    have three : (text "://").length = 3 := by decide
    simp only
    split
    · refine (fromStr_tame _).bind fun scheme _ => ?_
      have less : (s.drop (3 + scheme.asStr.length + (ParsedSpec.stripTilde before).2.toNat)).length <
          s.length := by
        rw [List.length_drop]
        omega
      exact ⟨Nat.le_of_lt less, fun _ => less⟩
    · exact Error.noConfusion

private theorem decodeParam_tame (s : Bytes) :
    Yields (Spec.decodeParam s) (· ≠ .depth) fun r => r.2.2.2.length ≤ s.length :=
  (decodePorts_tame _).bind fun _ _ => splitSlash_length s

private theorem getAuth_tame (inventory : Inventory) (scheme : Scheme) (domain : Bytes) :
    Yields (getAuth inventory scheme domain) (· ≠ .depth) fun _ => True := by
  simp only [getAuth]
  split
  · trivial
  · split
    · trivial
    · exact Error.noConfusion

private theorem decodePath_length (kind : PathKind) (tilde : Bool) (s : Bytes) :
    (Spec.decodePath kind tilde s).bytes.length ≤ s.length := by
  cases tilde with
  | false => exact Nat.le_refl _
  | true => exact Percent.length_decode_le s

private theorem decodeMeta_tame (marker delimiter : String) (s : Bytes) :
    Yields (Spec.decodeMeta marker delimiter s) (· ≠ .depth) fun r =>
      r.1.length < s.length ∧ r.2.length < s.length := by
  simp only [Spec.decodeMeta]
  split
  · next present =>
    split
    · have shorter := splitSlash_length s.tail
      have taken : (s.tail.takeWhile (· != Path.slash)).length ≤ s.tail.length :=
        (List.takeWhile_sublist _).length_le
      cases s with
      | nil => cases present
      | cons b rest =>
        exact ⟨Nat.lt_succ_of_le taken, Nat.lt_succ_of_le shorter⟩
    · exact Error.noConfusion
  · exact Error.noConfusion

private theorem decodeHub_tame (auth : Auth) (tilde : Bool) (s : Bytes) :
    Yields (Spec.decodeHub auth tilde s) (· ≠ .depth) fun r => r.1.bytes.length ≤ s.length := by
  refine (decodeMeta_tame _ _ s).bind ?_
  rintro ⟨domains, rest⟩ ⟨-, shorter⟩
  have path := Nat.le_trans (decodePath_length .os tilde rest) (Nat.le_of_lt shorter)
  simp only
  split
  · exact (ensure_tame _ _).bind fun _ _ => path
  · exact (ensure_tame _ _).bind fun _ _ => path

private theorem normalizePorts_tame (kind : AuthKind) (uri urn : Option Nat) (path : PathDyn) :
    Yields (Spec.normalizePorts kind uri urn path) (· ≠ .depth) fun _ => True := by
  cases kind with
  | regular => exact (ensure_tame _ _).bind fun _ _ => trivial
  | view => exact (ensure_tame _ _).bind fun _ _ => trivial
  | mount => trivial
  | hub => trivial
  | scope => trivial
  | sftp => trivial

private theorem validate_tame (auth : Auth) (path : PathDyn) :
    Yields (Spec.validateAuthPath auth path) (· ≠ .depth) fun _ => True := by
  refine (ofText_tame _).bind fun _ _ => (ofText_tame _).bind fun _ _ =>
    (ensure_tame _ _).bind fun _ _ => ?_
  split
  · exact ensure_tame _ _
  · trivial

private theorem toUrl_tame (spec : Spec) (path : PathDyn) :
    Yields (spec.toUrl path) (· ≠ .depth) fun _ => True := by
  refine (validate_tame _ _).bind fun _ _ => ?_
  split
  · split
    · trivial
    · exact (ofText_tame _).bind fun _ _ => trivial
  · exact (ofText_tame _).bind fun _ _ => trivial

/-! ### Wire data -/

namespace Decoder

variable {n : Nat}

theorem fail_tame {α : Type} {m : Nat} (message : String) :
    Tame .depth n m (fail message : Decoder α) fun _ => True :=
  fun _ _ => Error.noConfusion

private theorem byte_tame : Tame Error.depth (n + 1) n byte fun _ => True := by
  intro c room
  simp only [byte]
  cases rest : c.rest with
  | nil => exact Error.noConfusion
  | cons b tail =>
    rw [rest] at room
    exact ⟨Nat.le_of_succ_le_succ room, trivial⟩

private theorem readDigits_tame (i value : Nat) (s : Bytes) :
    Yields (Varint.readDigits i value s) (· ≠ .depth) fun _ => True := by
  induction s generalizing i value with
  | nil => exact Error.noConfusion
  | cons b rest ih =>
    simp only [Varint.readDigits]
    split
    · exact Error.noConfusion
    · split
      · split
        · exact ih _ _
        · trivial
      · exact Error.noConfusion

private theorem varint_tame : Tame Error.depth n n varint fun _ => True := by
  intro c room
  have digits := readDigits_tame 0 0 c.rest
  simp only [varint, Varint.readU64]
  cases result : Varint.readDigits 0 0 c.rest with
  | error e => exact digits.of_error result
  | ok r =>
    refine ⟨?_, trivial⟩
    simp only [List.length_drop]
    omega

private theorem signedVarint_tame : Tame Error.depth n n signedVarint fun _ => True := by
  intro c room
  have digits := readDigits_tame 0 0 c.rest
  simp only [signedVarint, Varint.readI64, Varint.readU64]
  cases result : Varint.readDigits 0 0 c.rest with
  | error e => exact digits.of_error result
  | ok r =>
    refine ⟨?_, trivial⟩
    simp only [List.length_drop]
    omega

private theorem sized_tame : Tame Error.depth n n sized fun s => s.length ≤ n := by
  refine varint_tame.bind fun len _ => ?_
  have takes : Tame Error.depth n n (take len.toNat) fun s => s.length ≤ n := by
    intro c room
    simp only [take]
    split
    · exact Error.noConfusion
    · split
      · exact Error.noConfusion
      · refine ⟨?_, ?_⟩
        · simp only [List.length_drop]
          omega
        · simp only [List.length_take]
          omega
  refine takes.bind fun s short => Tame.lift ?_
  exact (Twiddle.decode_short s).weaken (fun _ other => other)
    fun _ shorter => Nat.le_trans shorter short

private theorem utf8_tame : Tame Error.depth n n utf8 fun _ => True := by
  refine sized_tame.bind fun s _ => Tame.lift ?_
  split
  · trivial
  · exact Error.noConfusion

private theorem key_tame (integer : Bool) : Tame Error.depth n n (key integer) fun _ => True := by
  cases integer with
  | true => exact signedVarint_tame.bind fun _ _ => Tame.pure trivial
  | false => exact utf8_tame.bind fun _ _ => Tame.pure trivial

private theorem checkLength_tame (len : Nat) (message : String) :
    Tame Error.depth n n (checkLength len message) fun _ => True := by
  intro c room
  simp only [checkLength]
  split
  · exact ⟨room, trivial⟩
  · exact Error.noConfusion

variable {value : Decoder Wire} (nested : Tame Error.depth n n value fun _ => True)
include nested

private theorem list_tame (len : Nat) : Tame Error.depth n n (list value len) fun _ => True :=
  (checkLength_tame _ _).bind fun _ _ => (nested.times len).bind fun _ _ => Tame.pure trivial

private theorem entries_tame (len integers : Nat) (seen : List WireKey) :
    Tame Error.depth n n (entries value len integers seen) fun _ => True := by
  induction len generalizing integers seen with
  | zero => exact Tame.pure trivial
  | succ len ih =>
    refine (key_tame _).bind fun key _ => nested.bind fun data _ => ?_
    split
    · exact fail_tame _
    · exact (ih _ _).bind fun _ _ => Tame.pure trivial

private theorem dict_tame (len integers : Nat) :
    Tame Error.depth n n (dict value len integers) fun _ => True := by
  refine (checkLength_tame _ _).bind fun _ _ => ?_
  split
  · exact (entries_tame nested _ _ _).bind fun _ _ => Tame.pure trivial
  · exact fail_tame _

private theorem tagged_tame (floats : Floats) {url : Bytes → Except Error Url}
    (urls : ∀ s, s.length ≤ n → Yields (url s) (· ≠ .depth) fun _ => True) (tag : UInt8) :
    Tame Error.depth n n (tagged floats value url tag) fun _ => True := by
  have done : ∀ w : Wire, Tame Error.depth n n (pure w : Decoder Wire) fun _ => True :=
    fun _ => Tame.pure trivial
  rw [tagged]
  refine .ite (done _) (.ite (done _) (.ite (done _) (.ite ?_ (.ite ?_ (.ite ?_ (.ite ?_ (.ite ?_
    (.ite (done _) (.ite ?_ (.ite ?_ (.ite ?_ (.ite ?_ (Tame.lift Error.noConfusion)))))))))))))
  · exact signedVarint_tame.bind fun _ _ => done _
  · refine utf8_tame.bind fun b _ => ?_
    cases floats.parse b with
    | some n => exact done _
    | none => exact Tame.lift Error.noConfusion
  · exact utf8_tame.bind fun _ _ => done _
  · exact list_tame nested _
  · exact varint_tame.bind fun _ _ => list_tame nested _
  · exact varint_tame.bind fun _ _ => varint_tame.bind fun _ _ => dict_tame nested _ _
  · exact varint_tame.bind fun _ _ => done _
  · exact sized_tame.bind fun s short => (Tame.lift (urls s short)).bind fun _ _ => done _
  · exact sized_tame.bind fun _ _ => done _

end Decoder

/-! ### Urls -/

/-- With more levels than bytes no reader goes too deep. The path read is at most as long as
the text, and shorter behind a scheme. -/
def Bounded (parse : Bytes → Except Error (Spec × PathDyn)) (depth : Nat) : Prop :=
  ∀ s, Yields (parse s) (fun e => s.length < depth → e ≠ .depth) fun r =>
    r.2.bytes.length ≤ s.length ∧
      (splitSeqOnce (text "://") s ≠ none → r.2.bytes.length < s.length)

private theorem decodeView_tame {wire : Bytes → Except Error Wire}
    {parse : Bytes → Except Error (Spec × PathDyn)} {depth : Nat}
    (wires : ∀ s, s.length < depth → Yields (wire s) (· ≠ .depth) fun _ => True)
    (urls : Bounded parse depth) (auth : Auth) (tilde : Bool) (s : Bytes) :
    Yields (Spec.decodeView wire parse auth tilde s) (fun e => s.length ≤ depth → e ≠ .depth)
      fun r => r.1.bytes.length ≤ s.length := by
  have tame : ∀ {α : Type} {x : Except Error α} {post : α → Prop},
      Yields x (· ≠ .depth) post → Yields x (fun e => s.length ≤ depth → e ≠ .depth) post :=
    fun yields => yields.weaken (fun _ other _ => other) fun _ holds => holds
  refine (tame (decodeMeta_tame _ _ s)).bind ?_
  rintro ⟨encoded, rest⟩ ⟨short, shorter⟩
  simp only at short shorter
  have data : Yields (wire (Percent.decode encoded)) (fun e => s.length ≤ depth → e ≠ .depth)
      fun _ => True := by
    cases result : wire (Percent.decode encoded) with
    | ok w => trivial
    | error e =>
      intro room
      have less := Percent.length_decode_le encoded
      exact (wires _ (by omega)).of_error result
  refine data.bind fun data _ => ?_
  have source : (if tilde then Percent.decode rest else rest).length ≤ rest.length := by
    split
    · exact Percent.length_decode_le rest
    · exact Nat.le_refl _
  refine ((urls _).weaken (fun e other room => other (by omega)) fun _ holds => holds).bind ?_
  rintro ⟨spec, path⟩ ⟨less, -⟩
  simp only at less
  exact (tame (ofText_tame _)).bind fun _ _ => by
    change path.bytes.length ≤ s.length
    omega

private theorem parseWith_tame {wire : Bytes → Except Error Wire}
    {parse : Bytes → Except Error (Spec × PathDyn)} {depth : Nat} (inventory : Inventory)
    (wires : ∀ s, s.length < depth → Yields (wire s) (· ≠ .depth) fun _ => True)
    (urls : Bounded parse depth) :
    Bounded (Spec.parseWith inventory wire parse) (depth + 1) := by
  intro s
  have tame : ∀ {α : Type} {x : Except Error α} {post : α → Prop},
      Yields x (· ≠ .depth) post → Yields x (fun e => s.length < depth + 1 → e ≠ .depth) post :=
    fun yields => yields.weaken (fun _ other _ => other) fun _ holds => holds
  refine (tame (parsed_tame s)).bind fun parsed less => ?_
  have param : Yields (Spec.decodeDomain parsed) (· ≠ .depth) fun r =>
      r.2.2.2.length ≤ parsed.rest.length := by
    simp only [Spec.decodeDomain]
    split
    · exact Nat.le_refl _
    · exact decodeParam_tame _
  refine (tame param).bind ?_
  rintro ⟨domain, uri, urn, rest⟩ shorter
  simp only at shorter
  refine (tame (getAuth_tame inventory _ domain)).bind fun auth _ => ?_
  have paths : Yields (Spec.decodeKind wire parse auth parsed.tilde rest)
      (fun e => s.length < depth + 1 → e ≠ .depth) fun r => r.1.bytes.length ≤ rest.length := by
    simp only [Spec.decodeKind]
    split
    · exact tame (decodeHub_tame _ _ _)
    · exact (decodeView_tame wires urls _ _ _).weaken (fun e other room => other (by omega))
        fun _ holds => holds
    · exact (tame (ofText_tame _)).bind fun kind _ => decodePath_length kind _ _
  refine paths.bind ?_
  rintro ⟨path, auth⟩ length
  refine (tame (normalizePorts_tame _ _ _ _)).bind fun _ _ => ?_
  simp only at length
  exact ⟨by change path.bytes.length ≤ _; omega,
    fun marked => by
      have strict := less.2 marked
      change path.bytes.length < _
      omega⟩

section decode
variable (inventory : Inventory) (floats : Floats)

private theorem run_tame {value : Decoder Wire} {s : Bytes}
    (tame : Tame Error.depth s.length s.length value fun _ => True) :
    Yields (Decoder.run value s) (· ≠ .depth) fun _ => True := by
  have result := tame ⟨0, s⟩ (Nat.le_refl _)
  simp only [Decoder.run]
  cases run : value ⟨0, s⟩ with
  | error e => exact result.of_error run
  | ok r =>
    simp only
    split
    · trivial
    · exact Error.noConfusion

/-- Both readers at once: each level of one rests on the level below of both. -/
theorem bounded (depth : Nat) :
    (∀ n, n < depth → Tame Error.depth n n (value inventory floats depth) fun _ => True) ∧
      Bounded (parse inventory floats depth) depth := by
  induction depth with
  | zero =>
    refine ⟨fun n below => absurd below (Nat.not_lt_zero n), fun s below => ?_⟩
    exact absurd below (Nat.not_lt_zero _)
  | succ depth ih =>
    obtain ⟨values, urls⟩ := ih
    constructor
    · intro n below
      cases n with
      | zero =>
        intro c room
        have none : c.rest = [] := List.eq_nil_of_length_eq_zero (Nat.le_zero.mp room)
        have fails : value inventory floats (depth + 1) c =
            .error (.text "unexpected end of wire data") := by
          change Except.bind (Decoder.byte c) _ = _
          rw [Decoder.byte, none]
          rfl
        rw [fails]
        exact Error.noConfusion
      | succ n =>
        have nested := values n (Nat.lt_of_succ_lt_succ below)
        refine Tame.weaken (Decoder.byte_tame.bind fun tag _ => Decoder.tagged_tame nested floats
          (fun s short => ?_) tag) (fun _ holds => holds) (Nat.le_refl _) (Nat.le_succ n)
        refine ((urls s).weaken (fun e other => other (by omega)) fun _ holds => holds).bind ?_
        rintro ⟨spec, path⟩ -
        exact toUrl_tame spec path
    · exact parseWith_tame inventory (fun s short => run_tame (values _ short)) urls

/-- Reading a text ends for a reason of the text. -/
theorem decode_ne_depth (s : Bytes) : decode inventory floats s ≠ .error .depth := by
  intro fails
  have urls := (bounded inventory floats (s.length + 1)).2 s
  have whole : Yields (decode inventory floats s) (· ≠ .depth) fun _ => True :=
    (urls.weaken (fun e other => other (Nat.lt_succ_self _)) fun _ holds => holds).bind
      fun r _ => toUrl_tame r.1 r.2
  exact whole.of_error fails rfl

end decode

end Yazi.Shared
