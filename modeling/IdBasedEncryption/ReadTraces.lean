import Mathlib.Data.List.Basic

namespace IdBasedEncryption.ReadTraces

/-- A computation over a table: the indices it reads, and its value unless
something has put an end to it. -/
structure Run (ι α : Type) where
  reads : List ι
  value : Option α

instance instMonadRun (ι : Type) : Monad (Run ι) where
  pure a := ⟨[], some a⟩
  bind m f :=
    match m.value with
    | none => ⟨m.reads, none⟩
    | some a => ⟨m.reads ++ (f a).reads, (f a).value⟩

variable {ι α β σ : Type}

/-- The entry with index `i`, which may be out of reach. -/
def read (i : ι) (entry : Option α) : Run ι α := ⟨[i], entry⟩

/-- A step that reads nothing. -/
def lift (a : Option α) : Run ι α := ⟨[], a⟩

/-- All indices that are read have the property `p`. -/
def ReadsIn (p : ι → Prop) (m : Run ι α) : Prop := ∀ i ∈ m.reads, p i

theorem bind_eq (m : Run ι α) (f : α → Run ι β) : m >>= f =
    match m.value with
    | none => ⟨m.reads, none⟩
    | some a => ⟨m.reads ++ (f a).reads, (f a).value⟩ := rfl

section Value

theorem value_read (i : ι) (entry : Option α) : (read i entry).value = entry := rfl

theorem value_lift (a : Option α) : (lift a : Run ι α).value = a := rfl

theorem value_pure (a : α) : (pure a : Run ι α).value = some a := rfl

theorem value_bind (m : Run ι α) (f : α → Run ι β) : (m >>= f).value = m.value.bind fun a =>
    (f a).value := by
  rw [bind_eq]
  cases m.value <;> rfl

theorem value_foldlM (f : σ → α → Run ι σ) (l : List α) (s : σ) :
    (l.foldlM f s).value = l.foldlM (fun s a => (f s a).value) s := by
  induction l generalizing s with
  | nil => rfl
  | cons a l ih =>
      rw [List.foldlM_cons, List.foldlM_cons, value_bind, Option.bind_eq_bind]
      congr 1
      funext t
      exact ih t

end Value

section Reads

variable {p : ι → Prop}

theorem readsIn_pure (a : α) : ReadsIn p (pure a : Run ι α) := fun _ h => absurd h List.not_mem_nil

theorem readsIn_lift (a : Option α) : ReadsIn p (lift a) := fun _ h => absurd h List.not_mem_nil

theorem readsIn_read {i : ι} {entry : Option α} (h : p i) : ReadsIn p (read i entry) := by
  intro j hj
  rwa [List.mem_singleton.1 hj]

theorem readsIn_bind {m : Run ι α} {f : α → Run ι β} (hm : ReadsIn p m)
    (hf : ∀ a, m.value = some a → ReadsIn p (f a)) : ReadsIn p (m >>= f) := by
  rw [bind_eq]
  cases h : m.value with
  | none => exact hm
  | some a =>
      intro i hi
      rcases List.mem_append.1 hi with hi | hi
      · exact hm i hi
      · exact hf a h i hi

/-- A loop reads what its rounds read. -/
theorem readsIn_foldlM {f : σ → α → Run ι σ} {l : List α} (hf : ∀ a ∈ l, ∀ s, ReadsIn p (f s a))
    (s : σ) : ReadsIn p (l.foldlM f s) := by
  induction l generalizing s with
  | nil => exact readsIn_pure s
  | cons a l ih =>
      obtain ⟨ha, hl⟩ := List.forall_mem_cons.1 hf
      rw [List.foldlM_cons]
      exact readsIn_bind (ha s) fun t _ => ih hl t

end Reads

end IdBasedEncryption.ReadTraces
