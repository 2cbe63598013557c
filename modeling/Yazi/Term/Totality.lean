import Yazi.Term.Parser
import Yazi.Term.Safe

/-!
Which input makes the parser panic.

No sequence does that is gathered from its beginning, wherever it is cut off: one that is not
discarded starts with what led into its state. A later chunk starts with nothing in particular,
and one that is too short is sliced out of its range.
-/
namespace Yazi.Term
open Yazi.Base Yazi.Shared

/-- The byte ends a later chunk that is too short for what is sliced off it. -/
def shortChunk (p : Parser) (b : UInt8) : Bool :=
  match p.state with
  | .osc72 s =>
    s.hasMore && !p.discard && terminator.isSuffixOf (p.seq ++ [b]) && p.seq.length < 6
  | .osc5522 s =>
    s.hasMore && !p.discard &&
      (terminator.isSuffixOf (p.seq ++ [b]) && p.seq.length < 8 || b == bel && p.seq.length < 7)
  | _ => false

/-- Where no end of the one is a beginning of the other, both are there. -/
theorem length_of_apart {start stop seq : Bytes} (starts : start <+: seq) (ends : stop <:+ seq)
    (apart : ∀ n < start.length, ¬ start.drop n <+: stop) :
    start.length + stop.length ≤ seq.length := by
  obtain ⟨t, rfl⟩ := starts
  obtain ⟨u, same⟩ := ends
  rcases List.append_eq_append_iff.mp same with ⟨rest, front, back⟩ | ⟨rest, front, back⟩
  · by_cases short : u.length < start.length
    · refine absurd ?_ (apart u.length short)
      rw [front, List.drop_left, back]
      exact List.prefix_append rest t
    · rw [← same, List.length_append]
      omega
  · rw [List.length_append, back, List.length_append]
    omega

namespace Parser

/-- A sequence that is not discarded starts with what led into its state. -/
def Sound (p : Parser) : Prop :=
  match p.state with
  | .ground => p.seq = [] ∧ p.discard = false
  | .esc => p.seq = [0x1b]
  | .csi => p.discard = false → [0x1b, 0x5b] <+: p.seq
  | .bracketedPaste => p.discard = false → pasteStart <+: p.seq
  | .osc72 s => p.discard = false → s.hasMore = false → osc72Start <+: p.seq
  | .osc5522 s => p.discard = false → s.hasMore = false → osc5522Start <+: p.seq
  | _ => True

/-- A step panics under a condition, and is sound where it does not. -/
def Steps (panics : Prop) : Option Parser → Prop
  | none => panics
  | some p => ¬panics ∧ Sound p

variable {lib : Library} {p : Parser} {b : UInt8}

theorem sound_make : Sound make := ⟨rfl, rfl⟩

theorem sound_reset (p : Parser) : Sound p.reset := ⟨rfl, rfl⟩

theorem steps_some (sound : Sound p) : Steps False (some p) := ⟨id, sound⟩

/-- What never panics does not where it would be allowed to. -/
theorem steps_never {panics : Prop} {r : Option Parser} (never : ¬panics) (steps : Steps False r) :
    Steps panics r := by
  cases r with
  | none => exact steps.elim
  | some p => exact ⟨never, steps.2⟩

theorem steps_finish {parsed : Parsed Event} (safe : Safe parsed) : Steps False (p.finish parsed) := by
  cases parsed with
  | ok event => exact steps_some (sound_reset _)
  | error fault =>
    cases fault with
    | error e => exact steps_some (sound_reset _)
    | panic => exact absurd rfl safe

theorem steps_finishReport {parse : Bytes → Parsed Event} (safe : Safe (parse p.seq)) :
    Steps False (p.finishReport parse) := by
  rw [finishReport]
  split
  · exact steps_some (sound_reset _)
  · exact steps_finish safe

/-! ### Keys and characters -/

theorem steps_nonZero {n : Nat} (positive : n ≠ 0) {next : NonZeroU8 → Parser}
    (sound : ∀ n, Sound (next n)) : Steps False ((NonZeroU8.new n).map next) := by
  rw [NonZeroU8.new, dif_pos positive]
  exact steps_some (sound _)

theorem steps_onGround (ground : p.state = .ground) (sound : Sound p) (b : UInt8) :
    Steps False (p.onGround lib b) := by
  have emitted : ∀ key, Sound (p.emitKey key) := by
    intro key
    rw [Sound, ground] at sound
    rw [Sound, emitKey, emit, ground]
    exact sound
  rw [onGround]
  split
  · exact steps_some rfl
  · split
    next key _ => exact steps_some (emitted key)
    · split
      next wide => exact steps_nonZero (by omega) fun _ => trivial
      · exact steps_some sound

theorem steps_onEsc (start : p.seq = [0x1b]) (b : UInt8) : Steps False (p.onEsc lib b) := by
  unfold onEsc
  dsimp only
  split
  next bracket =>
    have same : b = 0x5b := UInt8.toNat_inj.mp (congrArg Char.toNat bracket)
    refine steps_some fun _ => ?_
    rw [push, start, same]
    exact List.prefix_refl _
  · exact steps_some trivial
  · exact steps_some trivial
  · exact steps_some trivial
  · exact steps_some trivial
  · split
    · exact steps_some (sound_reset _)
    · split
      · exact steps_some (sound_reset _)
      · split
        next wide => exact steps_nonZero (by omega) fun _ => trivial
        · exact steps_some (sound_reset _)

theorem steps_onEscO (p : Parser) (b : UInt8) : Steps False (p.onEscO b) := by
  rw [onEscO]
  split
  · exact steps_some (sound_reset _)
  · exact steps_some (sound_reset _)

theorem steps_onUtf8 (p : Parser) (b : UInt8) (remaining : NonZeroU8) :
    Steps False (p.onUtf8 lib b remaining) := by
  rw [onUtf8]
  split
  · exact steps_onGround rfl (sound_reset p) b
  · dsimp only
    split
    next more =>
      have some := remaining.nonzero
      exact steps_nonZero (by omega) fun _ => trivial
    · split
      · exact steps_some (sound_reset _)
      · exact steps_some (sound_reset _)

theorem steps_onAltUtf8 (p : Parser) (b : UInt8) (remaining : NonZeroU8) :
    Steps False (p.onAltUtf8 lib b remaining) := by
  rw [onAltUtf8]
  split
  · exact steps_onGround rfl (sound_reset p) b
  · dsimp only
    split
    next more =>
      have some := remaining.nonzero
      exact steps_nonZero (by omega) fun _ => trivial
    · have pushed : 1 ≤ (p.push b).seq.length := by
        rw [push, List.length_append]
        exact Nat.le_add_left 1 _
      rw [subslice_eq ⟨pushed, Nat.le_refl _⟩]
      dsimp only
      split
      · exact steps_some (sound_reset _)
      · exact steps_some (sound_reset _)

/-! ### CSI -/

theorem steps_onCsi (csi : p.state = .csi) (sound : Sound p) (b : UInt8) :
    Steps False (p.onCsi b) := by
  have start : p.discard = false → [0x1b, 0x5b] <+: p.seq := by
    rw [Sound, csi] at sound
    exact sound
  have gathers : Sound (p.push b) := by
    rw [Sound, push, csi]
    intro kept
    exact (start kept).trans (List.prefix_append _ _)
  rw [onCsi]
  split
  · exact steps_some gathers
  · split
    · exact steps_some gathers
    · split
      · exact steps_some (sound_reset _)
      next kept =>
        split
        · exact steps_some trivial
        · split
          next paste =>
            refine steps_some fun _ => ?_
            rw [paste]
          · have long := (start (Bool.eq_false_iff.mpr kept)).length_le
            apply steps_finish
            apply safe_parseCsi
            rw [push, List.length_append]
            exact Nat.lt_add_one_of_le long

theorem steps_onNormalMouse (mouse : p.state = .normalMouse) (b : UInt8) :
    Steps False (p.onNormalMouse b) := by
  have gathers : Sound (p.push b) := by
    rw [Sound, push, mouse]
    trivial
  rw [onNormalMouse]
  split
  · exact steps_some gathers
  · exact steps_finish (safe_parseCsiNormalMouse _)

/-- The start and the end of a paste do not overlap. -/
theorem paste_length {seq : Bytes} (starts : pasteStart <+: seq) (ends : pasteEnd <:+ seq) :
    12 ≤ seq.length :=
  length_of_apart starts ends (by decide)

theorem steps_onBracketedPaste (paste : p.state = .bracketedPaste) (sound : Sound p) (b : UInt8) :
    Steps False (p.onBracketedPaste b) := by
  have start : p.discard = false → pasteStart <+: p.seq ++ [b] := by
    rw [Sound, paste] at sound
    intro kept
    exact (sound kept).trans (List.prefix_append _ _)
  have gathers : Sound (p.push b) := by
    rw [Sound, push, paste]
    exact start
  rw [onBracketedPaste]
  split
  · exact steps_some gathers
  next ended =>
    split
    · exact steps_some (sound_reset _)
    next kept =>
      apply steps_finish
      apply safe_parsePaste
      apply paste_length (start (Bool.eq_false_iff.mpr kept))
      exact List.isSuffixOf_iff_suffix.mp (not_not.mp ended)

/-! ### Strings -/

theorem steps_onOsc (osc : p.state = .osc ∨ p.state = .oscSt) (b : UInt8) :
    Steps False (p.onOsc b) := by
  have gathers : Sound (p.push b) := by
    rcases osc with osc | osc
    · rw [Sound, push, osc]
      trivial
    · rw [Sound, push, osc]
      trivial
  rw [onOsc]
  rcases osc with osc | osc
  · simp only [push, osc] at gathers ⊢
    split
    · exact steps_finishReport (safe_parseOscReport _)
    · split
      next start => exact steps_some fun _ _ => List.isPrefixOf_iff_prefix.mp start
      · split
        next start => exact steps_some fun _ _ => List.isPrefixOf_iff_prefix.mp start
        · split
          · exact steps_some trivial
          · exact steps_some gathers
  · simp only [push, osc] at gathers ⊢
    split
    · exact steps_finishReport (safe_parseOscReport _)
    · split
      · exact steps_some gathers
      · exact steps_some trivial

theorem steps_onString {inside behind : State} {parse : Bytes → Parsed Event}
    (known : p.state = inside ∨ p.state = behind) (safe : ∀ seq, Safe (parse seq))
    (insides : ∀ p, p.state = inside → Sound p) (behinds : ∀ p, p.state = behind → Sound p)
    (b : UInt8) : Steps False (p.onString b inside behind parse) := by
  rw [onString]
  split
  next isInside =>
    split
    · exact steps_some (behinds _ rfl)
    · exact steps_some (insides _ isInside)
  next isNot =>
    split
    next isBehind =>
      split
      · exact steps_finishReport (safe _)
      · split
        · exact steps_some (behinds _ isBehind)
        · exact steps_some (insides _ rfl)
    next isNeither =>
      rcases known with known | known
      · exact absurd known isNot
      · exact absurd known isNeither

theorem steps_onDcs (dcs : p.state = .dcs ∨ p.state = .dcsSt) (b : UInt8) :
    Steps False (p.onDcs b) := by
  apply steps_onString dcs safe_parseDcsReport
  · intro p same
    rw [Sound, same]
    trivial
  · intro p same
    rw [Sound, same]
    trivial

theorem steps_onApc (apc : p.state = .apc ∨ p.state = .apcSt) (b : UInt8) :
    Steps False (p.onApc b) := by
  apply steps_onString apc safe_parseApcReport
  · intro p same
    rw [Sound, same]
    trivial
  · intro p same
    rw [Sound, same]
    trivial

/-! ### Chunks -/

theorem shortChunk_osc72 {s : StateOsc72} (osc : p.state = .osc72 s) (b : UInt8) :
    shortChunk p b = true ↔ s.hasMore = true ∧ p.discard = false ∧
      terminator <:+ p.seq ++ [b] ∧ p.seq.length < 6 := by
  rw [shortChunk, osc]
  simp [and_assoc]

theorem steps_onOsc72 {s : StateOsc72} (osc : p.state = .osc72 s) (sound : Sound p) (b : UInt8) :
    Steps (shortChunk p b = true) (p.onOsc72 lib s b) := by
  have start : p.discard = false → s.hasMore = false → osc72Start <+: p.seq ++ [b] := by
    rw [Sound, osc] at sound
    intro kept first
    exact (sound kept first).trans (List.prefix_append _ _)
  have gathers : Sound (p.push b) := by
    rw [Sound, push, osc]
    exact start
  have length : (p.push b).seq.length = p.seq.length + 1 := List.length_append
  rw [shortChunk_osc72 osc, onOsc72]
  split
  next goesOn =>
    refine steps_never ?_ (steps_some gathers)
    rintro ⟨-, -, ended, -⟩
    exact goesOn (List.isSuffixOf_iff_suffix.mpr ended)
  next ended =>
    have ended := List.isSuffixOf_iff_suffix.mp (not_not.mp ended)
    split
    next discarded =>
      refine steps_never ?_ (steps_some (sound_reset _))
      rintro ⟨-, kept, -⟩
      exact absurd (kept.symm.trans discarded) (by decide)
    next kept =>
      have kept := Bool.eq_false_iff.mpr kept
      have safe := safe_parseOsc72 ended s
      split
      next panics =>
        -- The slice is out of range, for which a first chunk is too long.
        have short : ¬ 7 ≤ (p.push b).seq.length := fun long => safe.mpr long panics
        refine ⟨?_, kept, ended, by omega⟩
        by_contra first
        exact short (length_of_apart (start kept (Bool.eq_false_iff.mpr first)) ended (by decide))
      next refused =>
        have long : 7 ≤ (p.push b).seq.length := safe.mp (by rw [refused]; exact safe_error _)
        refine steps_never ?_ (steps_some (sound_reset _))
        omega
      next s parsed =>
        have long : 7 ≤ (p.push b).seq.length := safe.mp (by rw [parsed]; exact safe_ok _)
        refine steps_never (by omega) ?_
        split
        next more =>
          refine steps_some fun _ first => ?_
          exact absurd (more.symm.trans first) (by decide)
        · split
          · exact steps_some (sound_reset _)
          · exact steps_some (sound_reset _)

theorem shortChunk_osc5522 {s : StateOsc5522} (osc : p.state = .osc5522 s) (b : UInt8) :
    shortChunk p b = true ↔ s.hasMore = true ∧ p.discard = false ∧
      (terminator <:+ p.seq ++ [b] ∧ p.seq.length < 8 ∨ b = bel ∧ p.seq.length < 7) := by
  rw [shortChunk, osc]
  simp [and_assoc]

/-- What the end of a chunk leaves of it. -/
theorem stripOscTerminator_length {seq : Bytes} :
    (∀ body, stripOscTerminator (seq ++ [b]) = .ok body → 7 ≤ body.length) ↔
      ¬(terminator <:+ seq ++ [b] ∧ seq.length < 8 ∨ b = bel ∧ seq.length < 7) := by
  have length : (seq ++ [b]).length = seq.length + 1 := List.length_append
  rw [stripOscTerminator, stripSuffix, stripSuffix]
  by_cases st : terminator <:+ seq ++ [b]
  · have other : b ≠ bel := by
      rintro rfl
      obtain ⟨front, same⟩ := st
      have last := congrArg List.getLast? same
      rw [List.getLast?_append, List.getLast?_append] at last
      cases last
    rw [if_pos (List.isSuffixOf_iff_suffix.mpr st)]
    have body : ((seq ++ [b]).take ((seq ++ [b]).length - terminator.length)).length =
        seq.length - 1 := by
      rw [List.length_take, length]
      change min (seq.length + 1 - 2) _ = _
      omega
    simp only [Option.some_or, orInvalid, Except.ok.injEq, forall_eq', body, st, other,
      true_and, false_and, or_false]
    omega
  · rw [if_neg fun ended => st (List.isSuffixOf_iff_suffix.mp ended)]
    by_cases same : b = bel
    · cases same
      have ended : [bel] <:+ seq ++ [bel] := List.suffix_append seq [bel]
      rw [if_pos (List.isSuffixOf_iff_suffix.mpr ended)]
      have body : ((seq ++ [bel]).take ((seq ++ [bel]).length - [bel].length)).length =
          seq.length := by
        rw [List.length_take, length]
        change min (seq.length + 1 - 1) _ = _
        omega
      simp only [Option.none_or, orInvalid, Except.ok.injEq, forall_eq', body, st,
        true_and, false_and, false_or]
      omega
    · have other : ¬ [bel] <:+ seq ++ [b] := by
        rintro ⟨front, whole⟩
        exact same (List.cons.inj (List.append_inj_right' whole rfl)).1.symm
      rw [if_neg fun ended => other (List.isSuffixOf_iff_suffix.mp ended)]
      simp [orInvalid, bail, st, same]

theorem steps_onOsc5522 {s : StateOsc5522} (osc : p.state = .osc5522 s) (sound : Sound p)
    (b : UInt8) : Steps (shortChunk p b = true) (p.onOsc5522 lib s b) := by
  have start : p.discard = false → s.hasMore = false → osc5522Start <+: p.seq := by
    rw [Sound, osc] at sound
    exact sound
  have gathers : Sound (p.push b) := by
    rw [Sound, push, osc]
    intro kept first
    exact (start kept first).trans (List.prefix_append _ _)
  rw [shortChunk_osc5522 osc, onOsc5522]
  split
  next goesOn =>
    refine steps_never ?_ (steps_some gathers)
    rintro ⟨-, -, ⟨ended, -⟩ | ⟨ended, -⟩⟩
    · exact goesOn.1 (List.isSuffixOf_iff_suffix.mpr ended)
    · exact goesOn.2 ended
  next ended =>
    split
    next discarded =>
      refine steps_never ?_ (steps_some (sound_reset _))
      rintro ⟨-, kept, -⟩
      exact absurd (kept.symm.trans discarded) (by decide)
    next kept =>
      have kept := Bool.eq_false_iff.mpr kept
      have safe : Safe (parseOsc5522 lib (p.push b).seq s) ↔ _ :=
        (safe_parseOsc5522 ..).trans stripOscTerminator_length
      split
      next panics =>
        have short := not_not.mp fun long => safe.mpr long panics
        refine ⟨?_, kept, short⟩
        by_contra first
        have starts := start kept (Bool.eq_false_iff.mpr first)
        have seven : 7 ≤ p.seq.length := starts.length_le
        rcases short with ⟨ended, short⟩ | ⟨-, short⟩
        · have nine : 9 ≤ (p.seq ++ [b]).length :=
            length_of_apart (starts.trans (List.prefix_append _ [b])) ended (by decide)
          rw [List.length_append, List.length_singleton] at nine
          omega
        · omega
      next refused =>
        have long := safe.mp (by rw [refused]; exact safe_error _)
        exact steps_never (fun short => long short.2.2) (steps_some (sound_reset _))
      next s parsed =>
        have long := safe.mp (by rw [parsed]; exact safe_ok _)
        refine steps_never (fun short => long short.2.2) ?_
        split
        next more =>
          refine steps_some fun _ first => ?_
          exact absurd (more.symm.trans first) (by decide)
        · split
          · exact steps_some (sound_reset _)
          · exact steps_some (sound_reset _)

/-! ### Steps and runs -/

theorem steps_dispatch (sound : Sound p) (b : UInt8) :
    Steps (shortChunk p b = true) (p.dispatch lib b) := by
  have never {r : Option Parser} (short : shortChunk p b = false) (steps : Steps False r) :
      Steps (shortChunk p b = true) r := steps_never (by rw [short]; exact Bool.false_ne_true) steps
  rw [dispatch]
  cases state : p.state with
  | ground => exact never (by rw [shortChunk, state]) (steps_onGround state sound b)
  | esc =>
    have start : p.seq = [0x1b] := by rwa [Sound, state] at sound
    exact never (by rw [shortChunk, state]) (steps_onEsc start b)
  | escO => exact never (by rw [shortChunk, state]) (steps_onEscO p b)
  | csi => exact never (by rw [shortChunk, state]) (steps_onCsi state sound b)
  | normalMouse => exact never (by rw [shortChunk, state]) (steps_onNormalMouse state b)
  | bracketedPaste => exact never (by rw [shortChunk, state]) (steps_onBracketedPaste state sound b)
  | osc => exact never (by rw [shortChunk, state]) (steps_onOsc (.inl state) b)
  | oscSt => exact never (by rw [shortChunk, state]) (steps_onOsc (.inr state) b)
  | osc72 s => exact steps_onOsc72 state sound b
  | osc5522 s => exact steps_onOsc5522 state sound b
  | dcs => exact never (by rw [shortChunk, state]) (steps_onDcs (.inl state) b)
  | dcsSt => exact never (by rw [shortChunk, state]) (steps_onDcs (.inr state) b)
  | apc => exact never (by rw [shortChunk, state]) (steps_onApc (.inl state) b)
  | apcSt => exact never (by rw [shortChunk, state]) (steps_onApc (.inr state) b)
  | utf8 n => exact never (by rw [shortChunk, state]) (steps_onUtf8 p b n)
  | altUtf8 n => exact never (by rw [shortChunk, state]) (steps_onAltUtf8 p b n)

/-- What is thrown away need not start with anything. -/
theorem sound_clip (sound : Sound p) : Sound p.clip := by
  rw [clip]
  split
  next full =>
    cases state : p.state with
    | ground =>
      rw [Sound, state] at sound
      rw [state, sound.1] at full
      exact absurd full (by decide)
    | esc =>
      -- A single byte is not too long.
      rw [Sound, state] at sound
      rw [state, sound] at full
      exact absurd full (by decide)
    | csi => exact nofun
    | bracketedPaste => exact nofun
    | osc72 => exact nofun
    | osc5522 => exact nofun
    | _ => trivial
  next => exact sound

/-- A chunk that is too short has not become too long before. -/
theorem shortChunk_clip (p : Parser) (b : UInt8) : shortChunk p.clip b = shortChunk p b := by
  rw [clip]
  split
  next full =>
    cases state : p.state with
    | osc72 s =>
      have full : 2 ^ 20 ≤ p.seq.length := by rwa [state] at full
      have long : ¬ p.seq.length < 6 := by omega
      rw [shortChunk, shortChunk, state, decide_eq_false long]
      simp
    | osc5522 s =>
      have full : 2 ^ 20 ≤ p.seq.length := by rwa [state] at full
      have long : ¬ p.seq.length < 8 := by omega
      have long' : ¬ p.seq.length < 7 := by omega
      rw [shortChunk, shortChunk, state, decide_eq_false long, decide_eq_false long']
      simp
    | _ => rw [shortChunk, shortChunk, state]
  next => rfl

/-- A byte makes the parser panic if and only if it ends a chunk that is too short. -/
theorem steps_step (sound : Sound p) (b : UInt8) :
    Steps (shortChunk p b = true) (p.step lib b) := by
  rw [step, ← shortChunk_clip]
  exact steps_dispatch (sound_clip sound) b

theorem sound_expire (sound : Sound p) (elapsed : Nat) : Sound (p.expire elapsed) := by
  rw [expire]
  split
  · exact sound
  · split
    · exact sound
    · split
      · exact sound_reset _
      · exact sound_reset _

/-- A chunk ends with the next input, and is too short. -/
def endsShort (p : Parser) : Input → Bool
  | .byte b => shortChunk p b
  | .expire _ => false
  | .drain => false

theorem steps_input (sound : Sound p) (a : Input) :
    Steps (endsShort p a = true) (p.input lib a) := by
  cases a with
  | byte b => exact steps_step sound b
  | expire elapsed => exact ⟨Bool.false_ne_true, sound_expire sound elapsed⟩
  | drain => exact ⟨Bool.false_ne_true, sound_reset p⟩

theorem sound_run {inputs : List Input} (reached : exec (input lib) make inputs = some p) :
    Sound p := by
  apply (run_of_exec reached).invariant (P := Sound) _ sound_make
  intro p a t sound move
  have steps : Steps _ (p.input lib a) := steps_input sound a
  rw [move] at steps
  exact steps.2

/-- Whatever the parser is fed, and whenever it expires or is drained: it does not panic if and
only if no later chunk of OSC 72 or OSC 5522 is shorter than the start and the end that a first
chunk has. -/
theorem total_iff (lib : Library) (calls : List Call) :
    (exec (call lib) make calls).isSome = true ↔ ∀ before a after p,
      calls.flatMap Call.inputs = before ++ a :: after →
        exec (input lib) make before = some p → ¬ endsShort p a = true := by
  rw [exec_call]
  apply exec_isSome_iff (Q := Sound) _ sound_make
  intro p a sound
  have steps : Steps _ (p.input lib a) := steps_input sound a
  split
  next panics =>
    rw [panics] at steps
    exact steps
  next next stepped =>
    rw [stepped] at steps
    exact steps

/-- The second chunk is only a terminator. -/
theorem terminator_panics : ¬ ∀ (lib : Library) (calls : List Call),
    (exec (call lib) make calls).isSome = true := by
  intro total
  have panics := total ⟨fun _ => false, fun _ => none, fun _ => none⟩
    [.parse (osc72Start ++ text "m=1" ++ terminator), .parse terminator]
  revert panics
  decide +kernel

end Parser

end Yazi.Term
