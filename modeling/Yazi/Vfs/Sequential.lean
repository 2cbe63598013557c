import Yazi.Vfs.Endpoints

/-!
A copy from the start of a file to its end.

The destination grows at its end, where all that was read arrives in its order, unless something
is lost on the way. The end of the copy waits for the rest, and learns what was lost.
-/
namespace Yazi.Vfs
open Yazi.Base Yazi.Shared Yazi.Fs

/-- What was brought over as a whole. -/
theorem eq_of_piped {content dest : Bytes} {count written : Nat}
    (piped : Piped content dest 0 count written []) (grown : dest.length = written)
    (last : content.length ≤ count) : dest = content ∧ count = content.length := by
  have place := piped.place
  have inside := piped.inside
  simp only [List.length_nil] at place
  have all : count = content.length := by omega
  refine ⟨?_, all⟩
  apply List.ext_getElem?
  intro pos
  by_cases below : pos < written
  · exact piped.done pos (Nat.zero_le pos) below
  · rw [List.getElem?_eq_none (by omega), List.getElem?_eq_none (by omega)]

namespace Sequential

def Action.fatal : Action → Bool
  | .read (.error _) | .write (.failed _) | .behind .lose | .shutdown (.failed _) => true
  | _ => false

variable {sizes : Sizes} {src : Source} {dest : Bytes} {s : Sequential}

/-- What was read is in the destination, or on its way there with the rest at hand. -/
def Carries (src : Source) (dest : Bytes) (s : Sequential) (rest : Bytes) : Prop :=
  s.dist.lost = true ∨ s.dist.lost = false ∧ s.dist.owed.getD 0 ≤ rest.length ∧
    Piped src.content dest 0 s.cursor s.dist.place (s.dist.ahead rest) ∧ dest.length = s.dist.place

/-- With how much was counted. -/
def Sound (src : Source) (dest : Bytes) (s : Sequential) (total : Nat) : Prop :=
  match s.phase with
  | .reading => s.Carries src dest [] ∧ total = s.cursor
  | .writing n rest => s.Carries src dest rest ∧ total + n = s.cursor
  | .shutting (.ok ()) =>
    s.Carries src dest [] ∧ total = s.cursor ∧ src.content.length ≤ s.cursor
  | .ended (.ok ()) => dest = src.content ∧ total = src.content.length
  | .shutting (.error _) | .ended (.error _) => True

theorem sound_make : make.Sound src [] 0 :=
  ⟨.inr ⟨rfl, Nat.le_refl 0, piped_start .., rfl⟩, rfl⟩

theorem sound_read {moved : Sequential × Bytes × Nat} {result : Except IoError Nat} {total : Nat}
    (sound : s.Sound src dest total) (move : s.step sizes src dest (.read result) = some moved) :
    moved.1.Sound src moved.2.1 (total + moved.2.2) := by
  cases phase : s.phase with
  | reading =>
    simp only [Sound, phase] at sound
    obtain ⟨carries, count⟩ := sound
    cases result with
    | error e =>
      simp only [step, phase] at move
      cases move
      trivial
    | ok n =>
      simp only [step, phase, Option.ite_none_right_eq_some] at move
      obtain ⟨given, move⟩ := move
      obtain ⟨-, bounded, last⟩ := of_decide_eq_true given
      split at move
      next none =>
        cases move
        -- There was room to read into, so the source is at its end.
        have filled := sizes.buffer_pos
        exact ⟨carries, count, (last none).resolve_left (by omega)⟩
      next some =>
        cases move
        have length : (slice src.content s.cursor n).length = n := length_slice (by omega)
        refine ⟨carries.imp_right ?_, congrArg (· + n) count⟩
        rintro ⟨whole, unowed, piped, grown⟩
        -- Nothing was at hand, so no request can wait for its answer.
        have none : s.dist.owed.getD 0 = 0 := Nat.le_zero.mp unowed
        have here : slice src.content s.cursor n =
            slice src.content (0 + s.cursor) (slice src.content s.cursor n).length := by
          rw [length, Nat.zero_add]
        have onward := piped.read here (by omega)
        rw [length, RwFile.ahead, List.drop_nil, List.append_nil] at onward
        refine ⟨whole, ?_, ?_, grown⟩
        · change s.dist.owed.getD 0 ≤ _
          omega
        · change Piped _ _ 0 (s.cursor + n) s.dist.place (s.dist.sent ++ List.drop _ _)
          rw [none]
          exact onward
  | _ => simp [step, phase] at move

theorem sound_write {moved : Sequential × Bytes × Nat} {answer : RwFile.Answer} {total : Nat}
    (sound : s.Sound src dest total) (move : s.step sizes src dest (.write answer) = some moved) :
    moved.1.Sound src moved.2.1 (total + moved.2.2) := by
  cases phase : s.phase with
  | writing n rest =>
    simp only [Sound, phase] at sound
    obtain ⟨carries, count⟩ := sound
    simp only [step, phase, Option.map_eq_some_iff] at move
    obtain ⟨polled, write, rfl⟩ := move
    have took := RwFile.took_of_pollWrite write
    rcases carries with lost | ⟨whole, bound, piped, grown⟩
    -- What was lost comes to light, or is still to come.
    · rcases took.of_lost lost with rfl | ⟨e, rfl⟩
      · simp only [wrote, Sound, phase]
        exact ⟨.inl lost, count⟩
      · trivial
    · cases took.went whole bound with
      | fails => trivial
      | waits whole place bound same =>
        simp only [wrote, Sound, phase]
        refine ⟨.inr ⟨whole, bound, ?_, grown.trans place.symm⟩, count⟩
        change Piped _ _ 0 s.cursor _ _
        rw [same, place]
        exact piped
      | @took file k whole place unowed fits same =>
        have carries : Carries src dest { s with dist := file } (rest.drop k) := by
          refine .inr ⟨whole, ?_, ?_, grown.trans place.symm⟩
          · change file.owed.getD 0 ≤ _
            rw [unowed]
            exact Nat.zero_le _
          · change Piped _ _ 0 s.cursor file.place (file.sent ++ List.drop (file.owed.getD 0) _)
            rw [unowed, place]
            change Piped _ _ 0 s.cursor s.dist.place (file.sent ++ rest.drop k)
            rw [same]
            exact piped
        simp only [wrote]
        split
        · trivial
        · split
          next all =>
            rw [all] at carries
            exact ⟨carries, count⟩
          next => exact ⟨carries, count⟩
  | _ => simp [step, phase] at move

theorem sound_behind {moved : Sequential × Bytes × Nat} {action : RwFile.Action} {total : Nat}
    (alive : ∀ result, s.phase ≠ .ended result) (sound : s.Sound src dest total)
    (move : s.step sizes src dest (.behind action) = some moved) :
    moved.1.Sound src moved.2.1 (total + moved.2.2) := by
  obtain ⟨⟨file, after⟩, stepped, rfl⟩ := Option.map_eq_some_iff.mp move
  have onward : ∀ {rest}, s.Carries src dest rest →
      Carries src after { s with dist := file } rest := by
    rintro rest carries
    cases RwFile.stepped_of_step stepped with
    | lost => exact .inl rfl
    | wrote n some fits =>
      refine carries.imp_right ?_
      rintro ⟨whole, bound, piped, grown⟩
      have enough : n ≤ (s.dist.ahead rest).length := by
        rw [RwFile.ahead, List.length_append]
        omega
      have onward := piped.commit enough (Nat.le_of_eq grown.symm)
      rw [RwFile.ahead, List.take_append_of_le_length fits,
        List.drop_append_of_le_length fits] at onward
      refine ⟨whole, bound, onward, ?_⟩
      change _ = s.dist.place + n
      rw [← grown, overwrite_end, List.length_append, List.length_take, Nat.min_eq_left fits]
  rw [Sound] at sound ⊢
  dsimp only
  split
  next is =>
    simp only [is] at sound
    exact ⟨onward sound.1, sound.2⟩
  next is =>
    simp only [is] at sound
    exact ⟨onward sound.1, sound.2⟩
  next is =>
    simp only [is] at sound
    exact ⟨onward sound.1, sound.2⟩
  next is => exact absurd is (alive _)
  · trivial
  · trivial

theorem sound_shutdown {moved : Sequential × Bytes × Nat} {answer : RwFile.Answer} {total : Nat}
    (sound : s.Sound src dest total)
    (move : s.step sizes src dest (.shutdown answer) = some moved) :
    moved.1.Sound src moved.2.1 (total + moved.2.2) := by
  cases phase : s.phase with
  | shutting result =>
    simp only [step, phase, Option.map_eq_some_iff] at move
    obtain ⟨polled, shuts, rfl⟩ := move
    cases RwFile.shut_of_pollShutdown shuts with
    | waits =>
      simp only [Sound, phase] at sound ⊢
      exact sound
    | fails e =>
      cases result with
      | error => trivial
      | ok => trivial
    | done quiet =>
      cases result with
      | error e => trivial
      | ok =>
        simp only [Sound, phase] at sound
        obtain ⟨carries, count, last⟩ := sound
        obtain ⟨none, whole⟩ := RwFile.quiet_iff.mp quiet
        -- The file has arrived at its end with nothing on its way.
        have kept : ¬s.dist.lost = true := by simp [whole]
        obtain ⟨-, -, piped, grown⟩ := carries.resolve_left kept
        rw [RwFile.ahead, none, List.drop_nil, List.append_nil] at piped
        obtain ⟨same, all⟩ := eq_of_piped piped grown last
        exact ⟨same, count.trans all⟩
  | _ => simp [step, phase] at move

theorem sound_step {moved : Sequential × Bytes × Nat} {action : Action} {total : Nat}
    (alive : ∀ result, s.phase ≠ .ended result) (sound : s.Sound src dest total)
    (move : s.step sizes src dest action = some moved) :
    moved.1.Sound src moved.2.1 (total + moved.2.2) := by
  cases action with
  | read result => exact sound_read sound move
  | write answer => exact sound_write sound move
  | behind action => exact sound_behind alive sound move
  | shutdown answer => exact sound_shutdown sound move

/-- The copy has failed, or will learn that it has. -/
def Doomed (s : Sequential) : Prop :=
  (s.dist.lost = true ∧ ∀ result, s.phase ≠ .ended result) ∨
    ∃ e, s.phase = .shutting (.error e) ∨ s.phase = .ended (.error e)

theorem doomed_step {moved : Sequential × Bytes × Nat} {action : Action}
    (alive : ∀ result, s.phase ≠ .ended result) (doomed : s.Doomed)
    (move : s.step sizes src dest action = some moved) : moved.1.Doomed := by
  -- While the copy is not about to fail, something was lost.
  have lost_of {p : Phase} (phase : s.phase = p) (good : ∀ e, p ≠ .shutting (.error e)) :
      s.dist.lost = true := by
    rcases doomed with ⟨lost, -⟩ | ⟨e, shutting | ended⟩
    · exact lost
    · exact absurd (phase.symm.trans shutting) (good e)
    · exact absurd ended (alive _)
  cases action with
  | read result =>
    cases phase : s.phase with
    | reading =>
      have lost := lost_of phase nofun
      cases result with
      | error e =>
        simp only [step, phase] at move
        cases move
        exact .inl ⟨lost, nofun⟩
      | ok n =>
        simp only [step, phase, Option.ite_none_right_eq_some] at move
        obtain ⟨-, move⟩ := move
        split at move
        · cases move
          exact .inl ⟨lost, nofun⟩
        · cases move
          exact .inl ⟨lost, nofun⟩
    | _ => simp [step, phase] at move
  | write answer =>
    cases phase : s.phase with
    | writing n rest =>
      have lost := lost_of phase nofun
      simp only [step, phase, Option.map_eq_some_iff] at move
      obtain ⟨polled, write, rfl⟩ := move
      rcases (RwFile.took_of_pollWrite write).of_lost lost with rfl | ⟨e, rfl⟩
      · exact .inl ⟨lost, alive⟩
      · exact .inr ⟨.io e, .inl rfl⟩
    | _ => simp [step, phase] at move
  | behind action =>
    obtain ⟨⟨file, after⟩, stepped, rfl⟩ := Option.map_eq_some_iff.mp move
    rcases doomed with ⟨lost, -⟩ | failed
    · cases RwFile.stepped_of_step stepped with
      | wrote => exact .inl ⟨lost, alive⟩
      | lost => exact .inl ⟨rfl, alive⟩
    · exact .inr failed
  | shutdown answer =>
    cases phase : s.phase with
    | shutting result =>
      simp only [step, phase, Option.map_eq_some_iff] at move
      obtain ⟨polled, shuts, rfl⟩ := move
      cases result with
      | error e =>
        cases RwFile.shut_of_pollShutdown shuts with
        | waits => exact .inr ⟨e, .inl rfl⟩
        | fails e' => exact .inr ⟨e, .inr rfl⟩
        | done quiet => exact .inr ⟨e, .inr rfl⟩
      | ok =>
        have lost := lost_of phase nofun
        cases RwFile.shut_of_pollShutdown shuts with
        | waits => exact .inl ⟨lost, nofun⟩
        | fails e => exact .inr ⟨.io e, .inr rfl⟩
        | done quiet => cases lost.symm.trans (RwFile.quiet_iff.mp quiet).2
    | _ => simp [step, phase] at move

theorem doomed_of_fatal {moved : Sequential × Bytes × Nat} {action : Action}
    (alive : ∀ result, s.phase ≠ .ended result) (fatal : action.fatal = true)
    (move : s.step sizes src dest action = some moved) : moved.1.Doomed := by
  match action with
  | .read (.error e) =>
    cases phase : s.phase with
    | reading =>
      simp only [step, phase] at move
      cases move
      exact .inr ⟨.io e, .inl rfl⟩
    | _ => simp [step, phase] at move
  | .write (.failed e) =>
    cases phase : s.phase with
    | writing n rest =>
      simp only [step, phase] at move
      cases move
      exact .inr ⟨.io e, .inl rfl⟩
    | _ => simp [step, phase] at move
  | .behind .lose =>
    obtain ⟨moved, stepped, rfl⟩ := Option.map_eq_some_iff.mp move
    obtain ⟨-, ⟨⟩⟩ := Option.ite_none_left_eq_some.mp stepped
    exact .inl ⟨rfl, alive⟩
  | .shutdown (.failed e) =>
    cases phase : s.phase with
    | shutting result =>
      simp only [step, phase] at move
      cases move
      cases result with
      | error e' => exact .inr ⟨e', .inr rfl⟩
      | ok => exact .inr ⟨.io e, .inr rfl⟩
    | _ => simp [step, phase] at move

end Sequential

end Yazi.Vfs
