import Mathlib.Data.List.Basic
import Mathlib.Data.List.TakeDrop

namespace IdBasedEncryption.IncrementalStreams

variable {σ α β : Type*}

/-- A machine that reads lists and writes lists does not see where its input is
cut. -/
structure Incremental (f : σ → List α → σ × List β) : Prop where
  nil (s : σ) : f s [] = (s, [])
  append (s : σ) (a b : List α) :
    f s (a ++ b) = ((f (f s a).1 b).1, (f s a).2 ++ (f (f s a).1 b).2)

/-- The same for a machine that only reads. -/
structure Absorbing (f : σ → List α → σ) : Prop where
  nil (s : σ) : f s [] = s
  append (s : σ) (a b : List α) : f s (a ++ b) = f (f s a) b

/-- Runs a machine that may fail over chunks of input. -/
def feed (f : σ → List α → Option (σ × List β)) : σ → List (List α) → Option (σ × List β)
  | s, [] => some (s, [])
  | s, c :: cs => do
      let (s, o) ← f s c
      let (s, os) ← feed f s cs
      return (s, o ++ os)

theorem feed_singleton (f : σ → List α → Option (σ × List β)) (s : σ) (v : List α) :
    feed f s [v] = f s v := by
  cases h : f s v <;> simp [feed, h]

/-- A relation between the state, all input so far and all output so far that
every step keeps is kept by a whole run. -/
theorem feed_induction {f : σ → List α → Option (σ × List β)} {I : σ → List α → List β → Prop}
    (hstep : ∀ s r w c, I s r w → ∃ t o, f s c = some (t, o) ∧ I t (r ++ c) (w ++ o))
    {s : σ} {r : List α} {w : List β} (h : I s r w) (cs : List (List α)) :
    ∃ t o, feed f s cs = some (t, o) ∧ I t (r ++ cs.flatten) (w ++ o) := by
  induction cs generalizing s r w with
  | nil => exact ⟨s, [], rfl, by simpa using h⟩
  | cons c cs ih =>
      obtain ⟨t, o, hf, ht⟩ := hstep s r w c h
      obtain ⟨u, os, hfs, hu⟩ := ih ht
      refine ⟨u, o ++ os, by simp [feed, hf, hfs], ?_⟩
      simpa only [List.flatten_cons, List.append_assoc] using hu

/-- Runs a machine over chunks of input. Every chunk has its own output. -/
def run (f : σ → List α → σ × List β) : σ → List (List α) → σ × List (List β)
  | s, [] => (s, [])
  | s, c :: cs =>
      let r := f s c
      let rs := run f r.1 cs
      (rs.1, r.2 :: rs.2)

/-- The chunks themselves do not matter. -/
theorem Incremental.run_eq {f : σ → List α → σ × List β} (hf : Incremental f) (s : σ)
    (cs : List (List α)) : (run f s cs).1 = (f s cs.flatten).1 ∧
      (run f s cs).2.flatten = (f s cs.flatten).2 := by
  induction cs generalizing s with
  | nil =>
      rw [List.flatten_nil, hf.nil]
      exact ⟨rfl, rfl⟩
  | cons c cs ih =>
      obtain ⟨hstate, hout⟩ := ih (f s c).1
      rw [List.flatten_cons, hf.append]
      exact ⟨hstate, congrArg (_ ++ ·) hout⟩

theorem run_append (f : σ → List α → σ × List β) (s : σ) (cs ds : List (List α)) :
    run f s (cs ++ ds) = ((run f (run f s cs).1 ds).1,
      (run f s cs).2 ++ (run f (run f s cs).1 ds).2) := by
  induction cs generalizing s with
  | nil => rfl
  | cons c cs ih =>
      rw [List.cons_append, run, ih]
      rfl

section HoldBack

/-- What may leave a buffer that keeps the last `n` elements. -/
def released (n : Nat) (l : List α) : List α := l.take (l.length - n)

/-- The last `n` elements, or all if there are fewer. -/
def held (n : Nat) (l : List α) : List α := l.drop (l.length - n)

variable (n : Nat) (l v : List α)

theorem released_append_held : released n l ++ held n l = l := List.take_append_drop ..

theorem length_held : (held n l).length = min n l.length := by
  rw [held, List.length_drop]
  omega

theorem released_eq_nil (h : l.length ≤ n) : released n l = [] := by
  rw [released, Nat.sub_eq_zero_of_le h, List.take_zero]

theorem held_eq_self (h : l.length ≤ n) : held n l = l := by
  rw [held, Nat.sub_eq_zero_of_le h, List.drop_zero]

theorem released_held_of_eq {n : Nat} {l a b : List α} (hl : l = a ++ b)
    (hb : b.length = min n l.length) : released n l = a ∧ held n l = b := by
  subst hl
  have ha : (a ++ b).length - n = a.length := by
    rw [List.length_append] at hb ⊢
    omega
  rw [released, held, ha, List.take_left, List.drop_left]
  exact ⟨rfl, rfl⟩

/-- The buffer itself need not remember what it has released. -/
theorem released_held_append :
    released n (l ++ v) = released n l ++ released n (held n l ++ v) ∧
      held n (l ++ v) = held n (held n l ++ v) := by
  have hsplit : l ++ v = (released n l ++ released n (held n l ++ v)) ++ held n (held n l ++ v) := by
    rw [List.append_assoc, released_append_held, ← List.append_assoc, released_append_held]
  have hlen := congrArg List.length (released_append_held n l)
  refine released_held_of_eq hsplit ?_
  simp only [length_held, List.length_append] at hlen ⊢
  omega

/-- Elements that leave anyway may be left out. -/
theorem released_held_drop {n k : Nat} {l : List α} (h : k + n ≤ l.length) :
    released n (l.drop k) = (released n l).drop k ∧ held n (l.drop k) = held n l := by
  have hk : l.length - k - n = l.length - n - k := by omega
  have hn : k + (l.length - n - k) = l.length - n := by omega
  rw [released, held, released, held, List.length_drop, hk, List.drop_take, List.drop_drop, hn]
  exact ⟨rfl, rfl⟩

section Flush

variable {n : Nat} {h : List α} {v : List α}

/-- Everything is released, and the new input fills the buffer. -/
theorem full_flush (hn : n ≤ v.length) :
    released n (h ++ v) = h ++ v.take (v.length - n) ∧ held n (h ++ v) = v.drop (v.length - n) := by
  have hsplit : h ++ v = (h ++ v.take (v.length - n)) ++ v.drop (v.length - n) := by
    rw [List.append_assoc, List.take_append_drop]
  refine released_held_of_eq hsplit ?_
  simp only [List.length_drop, List.length_append]
  omega

/-- The oldest elements make room for the new input. -/
theorem partial_flush (hn : n ≤ h.length + v.length) (hv : v.length ≤ n) :
    released n (h ++ v) = h.take (h.length + v.length - n) ∧
      held n (h ++ v) = h.drop (h.length + v.length - n) ++ v := by
  have hsplit : h ++ v = h.take (h.length + v.length - n) ++ (h.drop (h.length + v.length - n) ++ v) := by
    rw [← List.append_assoc, List.take_append_drop]
  refine released_held_of_eq hsplit ?_
  simp only [List.length_drop, List.length_append]
  omega

end Flush

end HoldBack

end IdBasedEncryption.IncrementalStreams
