import Mathlib.Data.Nat.Basic
import Mathlib.Order.Lattice

namespace IdBasedEncryption.FuelLoops

variable {σ α β : Type*}

/-- A loop without a test, whose body leaves it with a result or goes on with
another state. At most `fuel` rounds are made. -/
def loop (body : σ → α ⊕ σ) : σ → Nat → Option α
  | _, 0 => none
  | s, fuel + 1 =>
      match body s with
      | .inl a => some a
      | .inr t => loop body t fuel

/-- The same for a body that runs loops of its own. -/
def nest (body : σ → Nat → Option (α ⊕ σ)) : σ → Nat → Option α
  | _, 0 => none
  | s, fuel + 1 =>
      match body s fuel with
      | none => none
      | some (.inl a) => some a
      | some (.inr t) => nest body t fuel

/-- Enough fuel gives the result `a`. -/
def Returns (f : Nat → Option α) (a : α) : Prop := ∃ n, ∀ m, n ≤ m → f m = some a

def Terminates (f : Nat → Option α) : Prop := ∃ a, Returns f a

section Sequence

variable {f : Nat → Option α} {g : α → Nat → Option β} {a : α} {b : β}

theorem returns_some (a : α) : Returns (fun _ => some a) a := ⟨0, fun _ _ => rfl⟩

theorem Returns.unique {a' : α} (h : Returns f a) (h' : Returns f a') : a = a' := by
  obtain ⟨n, hn⟩ := h
  obtain ⟨n', hn'⟩ := h'
  have heq := (hn (max n n') (le_max_left ..)).symm.trans (hn' (max n n') (le_max_right ..))
  exact Option.some.inj heq

theorem Returns.bind (hf : Returns f a) (hg : Returns (g a) b) :
    Returns (fun n => (f n).bind fun x => g x n) b := by
  obtain ⟨n, hn⟩ := hf
  obtain ⟨n', hn'⟩ := hg
  refine ⟨max n n', fun m hm => ?_⟩
  simp only [hn m (le_trans (le_max_left ..) hm), Option.bind_some]
  exact hn' m (le_trans (le_max_right ..) hm)

theorem Returns.map (g : α → β) (hf : Returns f a) : Returns (fun n => (f n).map g) (g a) := by
  obtain ⟨n, hn⟩ := hf
  refine ⟨n, fun m hm => ?_⟩
  simp only [hn m hm, Option.map_some]

/-- Behind a part that returns, only the rest decides. -/
theorem Returns.bind_iff (hf : Returns f a) :
    Returns (fun n => (f n).bind fun x => g x n) b ↔ Returns (g a) b := by
  refine ⟨fun h => ?_, hf.bind⟩
  obtain ⟨n, hn⟩ := hf
  obtain ⟨n', hn'⟩ := h
  refine ⟨max n n', fun m hm => ?_⟩
  have hrun := hn' m (le_trans (le_max_right ..) hm)
  simpa only [hn m (le_trans (le_max_left ..) hm), Option.bind_some] using hrun

theorem Returns.terminates_bind_iff (hf : Returns f a) :
    Terminates (fun n => (f n).bind fun x => g x n) ↔ Terminates (g a) :=
  exists_congr fun _ => hf.bind_iff

end Sequence

section Loop

variable {body : σ → α ⊕ σ} {s t : σ} {a : α}

theorem returns_loop_inl (h : body s = .inl a) : Returns (loop body s) a := by
  refine ⟨1, fun m hm => ?_⟩
  obtain ⟨n, rfl⟩ := Nat.exists_eq_add_of_le' hm
  simp only [loop, h]

theorem returns_loop_inr (h : body s = .inr t) (ht : Returns (loop body t) a) :
    Returns (loop body s) a := by
  obtain ⟨n, hn⟩ := ht
  refine ⟨n + 1, fun m hm => ?_⟩
  obtain ⟨k, rfl⟩ := Nat.exists_eq_add_of_le' (Nat.le_of_add_left_le hm)
  simp only [loop, h]
  exact hn k (by omega)

theorem returns_loop_inr_iff (h : body s = .inr t) :
    Returns (loop body s) a ↔ Returns (loop body t) a := by
  refine ⟨fun hs => ?_, returns_loop_inr h⟩
  obtain ⟨n, hn⟩ := hs
  refine ⟨n, fun m hm => ?_⟩
  have hrun := hn (m + 1) (hm.trans (Nat.le_succ m))
  simpa only [loop, h] using hrun

theorem returns_loop_of_eq {n : Nat} (h : loop body s n = some a) : Returns (loop body s) a := by
  induction n generalizing s with
  | zero => cases h
  | succ n ih =>
      cases hs : body s with
      | inl b =>
          simp only [loop, hs] at h
          obtain rfl := Option.some.inj h
          exact returns_loop_inl hs
      | inr t =>
          simp only [loop, hs] at h
          exact returns_loop_inr hs (ih h)

/-- One round more in front of a loop with something behind it. -/
theorem Returns.loop_bind {g : α → Nat → Option β} {b : β} (h : body s = .inr t)
    (ht : Returns (fun n => (loop body t n).bind fun a => g a n) b) :
    Returns (fun n => (loop body s n).bind fun a => g a n) b := by
  obtain ⟨n, hn⟩ := ht
  obtain ⟨a, ha, -⟩ := Option.bind_eq_some_iff.1 (hn n le_rfl)
  have hr := returns_loop_of_eq ha
  exact (returns_loop_inr h hr).bind (hr.bind_iff.1 ⟨n, hn⟩)

theorem terminates_loop_map_iff (g : α → β) :
    Terminates (fun n => (loop body s n).bind fun a => some (g a)) ↔ Terminates (loop body s) := by
  constructor
  · rintro ⟨b, n, hn⟩
    obtain ⟨a, ha, -⟩ := Option.bind_eq_some_iff.1 (hn n le_rfl)
    exact ⟨a, returns_loop_of_eq ha⟩
  · rintro ⟨a, ha⟩
    exact ⟨g a, ha.bind (returns_some _)⟩

/-- What every round keeps holds when the loop is left. -/
theorem Returns.invariant {I : σ → Prop} {Q : α → Prop} (hr : Returns (loop body s) a) (hs : I s)
    (hI : ∀ s t, I s → body s = .inr t → I t) (hQ : ∀ s a, I s → body s = .inl a → Q a) : Q a := by
  obtain ⟨n, hn⟩ := hr
  have hrun := hn n le_rfl
  clear hn
  induction n generalizing s with
  | zero => cases hrun
  | succ n ih =>
      cases hb : body s with
      | inl b =>
          simp only [loop, hb] at hrun
          obtain rfl := Option.some.inj hrun
          exact hQ s b hs hb
      | inr t =>
          simp only [loop, hb] at hrun
          exact ih (hI s t hs hb) hrun

/-- Two loops that go through related states. -/
theorem loop_map {τ : Type*} {body' : τ → β ⊕ τ} (f : α → β) (g : σ → τ)
    (h : ∀ s, Sum.map f g (body s) = body' (g s)) (s : σ) (n : Nat) :
    (loop body s n).map f = loop body' (g s) n := by
  induction n generalizing s with
  | zero => rfl
  | succ n ih =>
      have hs := h s
      cases hb : body s with
      | inl a =>
          rw [hb, Sum.map_inl] at hs
          simp only [loop, hb, ← hs, Option.map_some]
      | inr t =>
          rw [hb, Sum.map_inr] at hs
          simp only [loop, hb, ← hs]
          exact ih t

/-- A loop that never leaves the states `I` runs forever. -/
theorem not_terminates_loop {I : σ → Prop} (hI : ∀ s, I s → ∃ t, body s = .inr t ∧ I t)
    (hs : I s) : ¬Terminates (loop body s) := by
  have hnone (n : Nat) {s : σ} (hs : I s) : loop body s n = none := by
    induction n generalizing s with
    | zero => rfl
    | succ n ih =>
        obtain ⟨t, hst, ht⟩ := hI s hs
        simp only [loop, hst]
        exact ih ht
  rintro ⟨a, n, hn⟩
  have hrun := hn n le_rfl
  rw [hnone n hs] at hrun
  cases hrun

end Loop

section Nest

variable {body : σ → Nat → Option (α ⊕ σ)} {s t : σ} {a : α}

theorem returns_nest_inl (h : Returns (body s) (.inl a)) : Returns (nest body s) a := by
  obtain ⟨n, hn⟩ := h
  refine ⟨n + 1, fun m hm => ?_⟩
  obtain ⟨k, rfl⟩ := Nat.exists_eq_add_of_le' (Nat.le_of_add_left_le hm)
  simp only [nest, hn k (by omega)]

theorem returns_nest_inr (h : Returns (body s) (.inr t)) (ht : Returns (nest body t) a) :
    Returns (nest body s) a := by
  obtain ⟨n, hn⟩ := h
  obtain ⟨n', hn'⟩ := ht
  refine ⟨max n n' + 1, fun m hm => ?_⟩
  obtain ⟨k, rfl⟩ := Nat.exists_eq_add_of_le' (Nat.le_of_add_left_le hm)
  simp only [nest, hn k (by omega)]
  exact hn' k (by omega)

theorem nest_map {τ : Type*} {body' : τ → Nat → Option (β ⊕ τ)} (f : α → β) (g : σ → τ)
    (h : ∀ s fuel, (body s fuel).map (Sum.map f g) = body' (g s) fuel) (s : σ) (n : Nat) :
    (nest body s n).map f = nest body' (g s) n := by
  induction n generalizing s with
  | zero => rfl
  | succ n ih =>
      have hs := h s n
      rcases hb : body s n with _ | a | t
      · rw [hb, Option.map_none] at hs
        simp only [nest, hb, ← hs, Option.map_none]
      · rw [hb, Option.map_some, Sum.map_inl] at hs
        simp only [nest, hb, ← hs, Option.map_some]
      · rw [hb, Option.map_some, Sum.map_inr] at hs
        simp only [nest, hb, ← hs]
        exact ih t

end Nest

end IdBasedEncryption.FuelLoops
