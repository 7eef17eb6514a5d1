import Mathlib.Data.List.Basic

namespace IdBasedEncryption.AccessTraces

inductive Access (ι : Type)
  | read (i : ι)
  | write (i : ι)
  deriving DecidableEq

variable {ι : Type}

/-- Every write goes to a place with the property `p`. -/
def WritesIn (p : ι → Prop) (log : List (Access ι)) : Prop := ∀ i, .write i ∈ log → p i

/-- No place with the property `p` is written to before it is read. -/
def ReadFirst (p : ι → Prop) (log : List (Access ι)) : Prop :=
  ∀ l₁ i l₂, log = l₁ ++ .write i :: l₂ → p i → .read i ∈ l₁

variable {p : ι → Prop} {log : List (Access ι)} {i : ι}

section Writes

theorem writesIn_nil : WritesIn p [] := fun _ h => absurd h List.not_mem_nil

theorem WritesIn.read (h : WritesIn p log) (i : ι) : WritesIn p (log ++ [.read i]) := by
  intro j hj
  simp only [List.mem_append, List.mem_singleton, reduceCtorEq, or_false] at hj
  exact h j hj

theorem WritesIn.write (h : WritesIn p log) (hi : p i) : WritesIn p (log ++ [.write i]) := by
  intro j hj
  simp only [List.mem_append, List.mem_singleton, Access.write.injEq] at hj
  rcases hj with hj | rfl
  · exact h j hj
  · exact hi

theorem writesIn_append {log' : List (Access ι)} :
    WritesIn p (log ++ log') ↔ WritesIn p log ∧ WritesIn p log' := by
  simp only [WritesIn, List.mem_append, or_imp, forall_and]

theorem writesIn_singleton : WritesIn p [.write i] ↔ p i := by
  simp [WritesIn]

/-- The places `f 0`, ..., `f (n - 1)` are written to. -/
def fill (f : Nat → ι) (n : Nat) : List (Access ι) := (List.range n).map fun i => .write (f i)

theorem writesIn_fill {f : Nat → ι} {n : Nat} : WritesIn p (fill f n) ↔ ∀ i < n, p (f i) := by
  simp [WritesIn, fill]

end Writes

section ReadFirst

theorem readFirst_nil : ReadFirst p [] := by
  intro l₁ i l₂ h
  exact absurd h.symm (by simp)

theorem split_concat {l₁ l₂ : List (Access ι)} {a : Access ι}
    (h : log ++ [a] = l₁ ++ .write i :: l₂) :
    (l₁ = log ∧ a = .write i) ∨ ∃ l, log = l₁ ++ .write i :: l := by
  rcases List.eq_nil_or_concat' l₂ with rfl | ⟨l, b, rfl⟩
  · obtain ⟨hlog, ha⟩ := List.append_inj' h rfl
    exact .inl ⟨hlog.symm, (List.cons.inj ha).1⟩
  · rw [← List.cons_append, ← List.append_assoc] at h
    exact .inr ⟨l, (List.append_inj' h rfl).1⟩

theorem ReadFirst.read (h : ReadFirst p log) (i : ι) : ReadFirst p (log ++ [.read i]) := by
  intro l₁ j l₂ hl hj
  rcases split_concat hl with ⟨-, ha⟩ | ⟨l, hlog⟩
  · cases ha
  · exact h l₁ j l hlog hj

theorem ReadFirst.write (h : ReadFirst p log) (hi : p i → .read i ∈ log) :
    ReadFirst p (log ++ [.write i]) := by
  intro l₁ j l₂ hl hj
  rcases split_concat hl with ⟨rfl, ha⟩ | ⟨l, hlog⟩
  · obtain rfl := Access.write.inj ha
    exact hi hj
  · exact h l₁ j l hlog hj

end ReadFirst

end IdBasedEncryption.AccessTraces
