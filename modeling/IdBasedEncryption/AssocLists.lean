import Mathlib.Data.List.Basic

namespace IdBasedEncryption.AssocLists

variable {ε κ : Type} [DecidableEq κ] (key : ε → κ)

def lookup (k : κ) (l : List ε) : Option ε := l.find? fun e => key e = k

/-- The first entry with the key `k` is changed, or a new one is put behind the
others. -/
def put (k : κ) (new : ε) (change : ε → ε) (l : List ε) : List ε :=
  match l.findIdx? fun e => key e = k with
  | none => l ++ [new]
  | some i => l.modify i change

variable {key} {k k' : κ} {new : ε} {change : ε → ε} {l : List ε}

theorem put_nil : put key k new change [] = [new] := rfl

theorem put_cons (e : ε) (l : List ε) : put key k new change (e :: l) =
    if key e = k then change e :: l else e :: put key k new change l := by
  rw [put, List.findIdx?_cons, put]
  by_cases h : key e = k
  · simp [h]
  · cases l.findIdx? fun e => decide (key e = k) <;> simp [h]

theorem mem_put {e : ε} {l : List ε} (h : e ∈ put key k new change l) :
    e = new ∨ e ∈ l ∨ ∃ e' ∈ l, key e' = k ∧ e = change e' := by
  induction l with
  | nil => exact .inl (List.mem_singleton.1 h)
  | cons a l ih =>
      rw [put_cons] at h
      split at h
      · next ha =>
          rcases List.mem_cons.1 h with rfl | h
          · exact .inr (.inr ⟨a, List.mem_cons_self, ha, rfl⟩)
          · exact .inr (.inl (List.mem_cons_of_mem a h))
      · rcases List.mem_cons.1 h with rfl | h
        · exact .inr (.inl List.mem_cons_self)
        · rcases ih h with h | h | ⟨e', he', hkey, heq⟩
          · exact .inl h
          · exact .inr (.inl (List.mem_cons_of_mem a h))
          · exact .inr (.inr ⟨e', List.mem_cons_of_mem a he', hkey, heq⟩)

section Put

variable (hnew : key new = k) (hchange : ∀ e, key (change e) = key e)
include hnew hchange

theorem lookup_put_self {γ : Type} {f : ε → γ} (hf : ∀ e, f (change e) = f new) (l : List ε) :
    (lookup key k (put key k new change l)).map f = some (f new) := by
  induction l with
  | nil => simp [put_nil, lookup, hnew]
  | cons e l ih =>
      rw [put_cons]
      split
      · next h => simp [lookup, hchange, h, hf]
      · next h =>
          rw [lookup, List.find?_cons_of_neg (by simpa using h)]
          exact ih

theorem lookup_put_ne (h : k ≠ k') (l : List ε) :
    lookup key k' (put key k new change l) = lookup key k' l := by
  induction l with
  | nil => simp [put_nil, lookup, hnew, h]
  | cons e l ih =>
      rw [put_cons]
      split
      · next he =>
          have hne : key e ≠ k' := he ▸ h
          simp [lookup, hchange, hne]
      · rw [lookup, lookup, List.find?_cons, List.find?_cons]
        rw [lookup, lookup] at ih
        rw [ih]

omit hnew in
theorem map_put_of_mem {l : List ε} (h : k ∈ l.map key) :
    (put key k new change l).map key = l.map key := by
  induction l with
  | nil => cases h
  | cons e l ih =>
      rw [put_cons]
      split
      · rw [List.map_cons, List.map_cons, hchange]
      · next he =>
          rw [List.map_cons, List.map_cons, ih ((List.mem_cons.1 h).resolve_left (Ne.symm he))]

omit hchange in
theorem map_put_of_notMem {l : List ε} (h : k ∉ l.map key) :
    (put key k new change l).map key = l.map key ++ [k] := by
  induction l with
  | nil => simp [put_nil, hnew]
  | cons e l ih =>
      obtain ⟨he, hl⟩ := not_or.1 (List.mem_cons.not.1 h)
      rw [put_cons, if_neg (Ne.symm he), List.map_cons, ih hl, List.map_cons, List.cons_append]

end Put

end IdBasedEncryption.AssocLists
