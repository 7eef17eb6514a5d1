import Mathlib.Data.Option.Basic
import Mathlib.Data.Option.Defs

namespace IdBasedEncryption.Transcripts

variable {σ τ ι ο : Type}

/-- What the steps of a run return. A step without a result ends it. -/
def transcript (step : σ → ι → Option (ο × σ)) : σ → List ι → List ο
  | _, [] => []
  | s, i :: is =>
      match step s i with
      | none => []
      | some (o, s) => o :: transcript step s is

/-- Machines whose steps return the same from related states have the same
transcripts. -/
theorem transcript_eq {step : σ → ι → Option (ο × σ)} {step' : τ → ι → Option (ο × τ)}
    {R : σ → τ → Prop} (hstep : ∀ s t i, R s t →
      Option.Rel (fun a b => a.1 = b.1 ∧ R a.2 b.2) (step s i) (step' t i))
    {s : σ} {t : τ} (h : R s t) (is : List ι) : transcript step s is = transcript step' t is := by
  induction is generalizing s t with
  | nil => rfl
  | cons i is ih =>
      have hrel := hstep s t i h
      rw [transcript, transcript]
      generalize step s i = a, step' t i = b at hrel
      cases hrel with
      | none => rfl
      | some hab => exact congrArg₂ List.cons hab.1 (ih hab.2)

end IdBasedEncryption.Transcripts
