import Entitle.Proofs.Worlds
import Entitle.Run.Launch

/-!
# Worlds of recorded runs

A recorded run asks a repository and a history. Both are one world here, and the run itself meets
the part of it that is no history.

## Main definitions

* `RunWorld`, `RunWorld.steps`: the worlds of recorded runs, and the part of one that a run meets.
* `RunRequest.IsStep`, `RunRequest.IsLookup`, `RunRequest.IsRecord`: kinds of requests.

## Main statements

* `Running.transcript_recording`: a run that is a part of a recorded run goes as it does alone.
-/
namespace Entitle

/-- What a recorded run may meet. The world replies to every request, and may be another one
afterwards. -/
abbrev RunWorld (σ : Type) := (r : RunRequest) → StateM σ (RunReply r)

/-- What the run itself meets in a world. -/
def RunWorld.steps {σ : Type} (w : RunWorld σ) : World σ :=
  fun r => w (.step r)

namespace RunRequest

/-- A request of the run itself, with the property. -/
def IsStep (P : Request → Prop) : RunRequest → Prop
  | step r => P r
  | history _ => False

/-- A question for the newest record with a key. -/
def IsLookup : RunRequest → Prop
  | history (.latest ..) => True
  | _ => False

/-- A record to be kept. -/
def IsRecord : RunRequest → Prop
  | history (.record _) => True
  | _ => False

theorem IsLookup.not_isRecord {r : RunRequest} (h : r.IsLookup) : ¬ r.IsRecord := by
  cases r with
  | step => exact h.elim
  | history r => cases r <;> simp_all [IsLookup, IsRecord]

theorem IsStep.not_isRecord {P : Request → Prop} {r : RunRequest} (h : r.IsStep P) :
    ¬ r.IsRecord := by
  cases r with
  | step => exact id
  | history => exact h.elim

end RunRequest

namespace Running

variable {σ α : Type}

theorem meets_recording {P : Request → Prop} {Q : α → Prop} {p : Running α} (hp : p.Meets P Q) :
    p.recording.Meets (RunRequest.IsStep P) Q := by
  induction p with
  | done a => exact hp
  | ask r next ih => exact ⟨hp.1, fun reply => ih reply (hp.2 reply)⟩

/-- A run that is a part of a recorded run goes as it does alone. -/
theorem transcript_recording (w : RunWorld σ) (p : Running α) (x : σ) :
    (p.recording.transcript w x).result = (p.through w.steps x).result ∧
      (p.recording.transcript w x).world = (p.through w.steps x).world := by
  induction p generalizing x with
  | done a => exact ⟨rfl, rfl⟩
  | ask r next ih => exact ih _ _

end Running

namespace History

theorem recording_record (r : Record) :
    (record r).recording = Dialogue.request (RunRequest.history (.record r)) := rfl

theorem recording_latest (identity checksum : String) (mode : Mode) :
    (latest identity checksum mode).recording =
      Dialogue.request (RunRequest.history (.latest identity checksum mode)) := rfl

theorem recording_lookup (identity checksum : String) :
    (lookup identity checksum).recording =
      Dialogue.request (RunRequest.history (.latest identity checksum .apply)) := rfl

end History

end Entitle
