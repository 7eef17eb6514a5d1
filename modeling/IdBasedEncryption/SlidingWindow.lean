import Mathlib

namespace IdBasedEncryption.SlidingWindow

variable {σ : Type*} (d : Nat → Int) (w : Nat)

/-- Value of the `n` signed digits found from position `l` upwards. -/
def digitsValue (l : Nat) : Nat → Int
  | 0 => 0
  | n + 1 => d l + 2 * digitsValue (l + 1) n

/-- The first of `n` positions from `l` upwards whose digit is not zero, and
the position after them when there is none. -/
def scanNonzero (l : Nat) : Nat → Nat
  | 0 => l
  | n + 1 => if d l = 0 then scanNonzero (l + 1) n else l

def windowStart (m : Nat) : Nat := scanNonzero d (m + 1 - w) (m - (m + 1 - w))

/-- Left-to-right evaluation of `r` remaining digits. A zero digit costs one
doubling, and a nonzero one opens a window of at most `w` digits, which is
mixed in at once after as many doublings. -/
def windowLoop (double : σ → σ) (mix : Int → σ → σ) : Nat → Nat → σ → σ
  | 0, _, s => s
  | _ + 1, 0, s => s
  | fuel + 1, m + 1, s =>
      if d m = 0 then windowLoop double mix fuel m (double s)
      else
        let l := windowStart d w m
        windowLoop double mix fuel l (mix (digitsValue d l (m + 1 - l)) (double^[m + 1 - l] s))

/-- Lowest and highest positions of the windows the loop opens, in order. -/
def windows : Nat → Nat → List (Nat × Nat)
  | 0, _ => []
  | _ + 1, 0 => []
  | fuel + 1, m + 1 =>
      if d m = 0 then windows fuel m
      else (windowStart d w m, m) :: windows fuel (windowStart d w m)

variable {d w}

@[simp] theorem digitsValue_zero (l : Nat) : digitsValue d l 0 = 0 := rfl

@[simp] theorem digitsValue_one (l : Nat) : digitsValue d l 1 = d l := by
  simp [digitsValue]

theorem digitsValue_append (l a b : Nat) :
    digitsValue d l (a + b) = digitsValue d l a + 2 ^ a * digitsValue d (l + a) b := by
  induction a generalizing l with
  | zero => simp
  | succ a ih =>
      have h := ih (l + 1)
      rw [show a + 1 + b = (a + b) + 1 by omega]
      simp only [digitsValue, h, show l + (a + 1) = l + 1 + a by omega, pow_succ]
      ring

/-- The digits of a window are the lowest ones of those from its start upwards. -/
theorem digitsValue_split {l m top : Nat} (hlm : l ≤ m) (hm : m < top) :
    digitsValue d l (top - l) =
      digitsValue d l (m + 1 - l) + 2 ^ (m + 1 - l) * digitsValue d (m + 1) (top - (m + 1)) := by
  rw [show top - l = (m + 1 - l) + (top - (m + 1)) by omega, digitsValue_append,
    show l + (m + 1 - l) = m + 1 by omega]

theorem le_scanNonzero (l n : Nat) : l ≤ scanNonzero d l n := by
  induction n generalizing l with
  | zero => exact le_rfl
  | succ n ih =>
      rw [scanNonzero]
      split
      · exact (Nat.le_succ l).trans (ih (l + 1))
      · exact le_rfl

theorem scanNonzero_le (l n : Nat) : scanNonzero d l n ≤ l + n := by
  induction n generalizing l with
  | zero => exact le_rfl
  | succ n ih =>
      rw [scanNonzero]
      split
      · have h := ih (l + 1); omega
      · omega

theorem scanNonzero_ne_zero (l n : Nat) (h : d (l + n) ≠ 0) : d (scanNonzero d l n) ≠ 0 := by
  induction n generalizing l with
  | zero => exact h
  | succ n ih =>
      rw [scanNonzero]
      split
      · exact ih (l + 1) (by rwa [show l + 1 + n = l + (n + 1) by omega])
      · assumption

/-- The search does not look behind a digit that is not zero. -/
theorem scanNonzero_eq {l a b : Nat} (hab : a ≤ b) (h : d (l + a) ≠ 0) :
    scanNonzero d l b = scanNonzero d l a := by
  induction a generalizing l b with
  | zero =>
      cases b with
      | zero => rfl
      | succ b =>
          simp only [scanNonzero]
          exact if_neg h
  | succ a ih =>
      obtain ⟨b, rfl⟩ := Nat.exists_eq_add_of_le' (Nat.zero_lt_of_lt hab)
      rw [scanNonzero, scanNonzero, ih (Nat.le_of_succ_le_succ hab) (by rwa [Nat.add_right_comm])]

theorem windowStart_le (hw : 0 < w) (m : Nat) : windowStart d w m ≤ m := by
  have h := scanNonzero_le (d := d) (m + 1 - w) (m - (m + 1 - w))
  rw [windowStart]
  omega

theorem windowStart_ne_zero (hw : 0 < w) {m : Nat} (hm : d m ≠ 0) :
    d (windowStart d w m) ≠ 0 := by
  apply scanNonzero_ne_zero
  rwa [show m + 1 - w + (m - (m + 1 - w)) = m by omega]

theorem lt_windowStart_add (m : Nat) : m < windowStart d w m + w := by
  have h := le_scanNonzero (d := d) (m + 1 - w) (m - (m + 1 - w))
  rw [windowStart]
  omega

/-- What every window satisfies: it starts and ends with a nonzero digit and
spans at most `w` positions. -/
theorem mem_windows (hw : 0 < w) {fuel r l m : Nat} (h : (l, m) ∈ windows d w fuel r) :
    l ≤ m ∧ m < r ∧ m < l + w ∧ d l ≠ 0 ∧ d m ≠ 0 := by
  induction fuel generalizing r with
  | zero => simp [windows] at h
  | succ fuel ih =>
      cases r with
      | zero => simp [windows] at h
      | succ r =>
          rw [windows] at h
          split at h
          · obtain ⟨h₁, h₂, h₃⟩ := ih h
            exact ⟨h₁, by omega, h₃⟩
          · rename_i hd
            have hle := windowStart_le (d := d) hw r
            rcases List.mem_cons.1 h with he | h
            · obtain ⟨rfl, rfl⟩ := Prod.mk.inj he
              exact ⟨hle, by omega, lt_windowStart_add _, windowStart_ne_zero hw hd, hd⟩
            · obtain ⟨h₁, h₂, h₃⟩ := ih h
              exact ⟨h₁, by omega, h₃⟩

/-- When the lowest digit is not zero, it belongs to the last window. -/
theorem exists_getLast?_windows (hw : 0 < w) (hd : d 0 ≠ 0) {fuel r : Nat} (hr : 0 < r)
    (hfuel : r ≤ fuel) : ∃ m, (windows d w fuel r).getLast? = some (0, m) := by
  induction fuel generalizing r with
  | zero => omega
  | succ fuel ih =>
      obtain ⟨m, rfl⟩ := Nat.exists_eq_succ_of_ne_zero hr.ne'
      rw [Nat.succ_eq_add_one, windows]
      split
      · rename_i hm
        have hpos : 0 < m := Nat.pos_of_ne_zero fun h0 => hd (h0 ▸ hm)
        exact ih hpos (Nat.le_of_succ_le_succ hfuel)
      · have hle := windowStart_le (d := d) hw m
        by_cases h0 : windowStart d w m = 0
        · rw [h0]
          refine ⟨m, ?_⟩
          cases fuel <;> rfl
        · obtain ⟨m', hm'⟩ := ih (Nat.pos_of_ne_zero h0) (hle.trans (Nat.le_of_succ_le_succ hfuel))
          exact ⟨m', by rw [List.getLast?_cons, hm', Option.getD_some]⟩

theorem iterate_double {double : σ → σ} {Rep : Int → σ → Prop} {top : Nat}
    (hdouble : ∀ r i s, 0 < r → r ≤ top → Rep (2 ^ i * digitsValue d r (top - r)) s →
      Rep (2 ^ (i + 1) * digitsValue d r (top - r)) (double s))
    {r : Nat} (hr0 : 0 < r) (hr : r ≤ top) {s : σ} (hs : Rep (digitsValue d r (top - r)) s) (i : Nat) :
    Rep (2 ^ i * digitsValue d r (top - r)) (double^[i] s) := by
  induction i with
  | zero => simpa using hs
  | succ i ih =>
      rw [Function.iterate_succ_apply']
      exact hdouble _ _ _ hr0 hr ih

/-- The loop invariant. `Rep k s` reads that `s` stands for the multiple `k`;
the loop reaches the value of all `top` digits from that of the digits above
position `r`, provided each doubling and each opened window is sound. -/
theorem windowLoop_rep (hw : 0 < w) (double : σ → σ) (mix : Int → σ → σ) (Rep : Int → σ → Prop)
    (top : Nat)
    (hdouble : ∀ r i s, 0 < r → r ≤ top → Rep (2 ^ i * digitsValue d r (top - r)) s →
      Rep (2 ^ (i + 1) * digitsValue d r (top - r)) (double s))
    {fuel r : Nat} {s : σ} (hfuel : r ≤ fuel) (hr : r ≤ top)
    (hmix : ∀ l m s, (l, m) ∈ windows d w fuel r →
      Rep (2 ^ (m + 1 - l) * digitsValue d (m + 1) (top - (m + 1))) s →
      Rep (digitsValue d l (top - l)) (mix (digitsValue d l (m + 1 - l)) s))
    (hs : Rep (digitsValue d r (top - r)) s) :
    Rep (digitsValue d 0 top) (windowLoop d w double mix fuel r s) := by
  induction fuel generalizing r s with
  | zero =>
      obtain rfl : r = 0 := by omega
      exact hs
  | succ fuel ih =>
      cases r with
      | zero => exact hs
      | succ m =>
          have hiter := iterate_double hdouble (Nat.succ_pos m) hr hs
          rw [windowLoop]
          split
          · rename_i hd
            refine ih (by omega) (by omega) (fun l m' s hl => hmix l m' s ?_) ?_
            · rwa [windows, if_pos hd]
            · have h := hiter 1
              rw [show top - m = 1 + (top - (m + 1)) by omega, digitsValue_append]
              simpa [hd] using h
          · rename_i hd
            have hle := windowStart_le (d := d) hw m
            refine ih (by omega) (by omega) (fun l m' s hl => hmix l m' s ?_) ?_
            · rw [windows, if_neg hd]
              exact List.mem_cons_of_mem _ hl
            · refine hmix _ m _ ?_ (hiter _)
              rw [windows, if_neg hd]
              exact List.mem_cons_self

/-- When the last window starts at the lowest position, it is all that is left
to be sound: the loop ends with mixing it in. -/
theorem windowLoop_last (hw : 0 < w) (double : σ → σ) (mix : Int → σ → σ) (Rep : Int → σ → Prop)
    (top : Nat)
    (hdouble : ∀ r i s, 0 < r → r ≤ top → Rep (2 ^ i * digitsValue d r (top - r)) s →
      Rep (2 ^ (i + 1) * digitsValue d r (top - r)) (double s))
    {fuel r : Nat} {s : σ} (hr : r ≤ top)
    (hmix : ∀ l m s, (l, m) ∈ windows d w fuel r → l ≠ 0 →
      Rep (2 ^ (m + 1 - l) * digitsValue d (m + 1) (top - (m + 1))) s →
      Rep (digitsValue d l (top - l)) (mix (digitsValue d l (m + 1 - l)) s))
    (hs : Rep (digitsValue d r (top - r)) s) {m : Nat} (hm : (0, m) ∈ windows d w fuel r) :
    ∃ s', Rep (2 ^ (m + 1) * digitsValue d (m + 1) (top - (m + 1))) s' ∧
      windowLoop d w double mix fuel r s = mix (digitsValue d 0 (m + 1)) s' := by
  induction fuel generalizing r s with
  | zero => simp [windows] at hm
  | succ fuel ih =>
      cases r with
      | zero => simp [windows] at hm
      | succ k =>
          have hiter := iterate_double hdouble (Nat.succ_pos k) hr hs
          rw [windowLoop]
          rw [windows] at hm hmix
          split
          · rename_i hd
            rw [if_pos hd] at hm hmix
            refine ih (by omega) hmix ?_ hm
            have h := hiter 1
            rw [show top - k = 1 + (top - (k + 1)) by omega, digitsValue_append]
            simpa [hd] using h
          · rename_i hd
            rw [if_neg hd] at hm hmix
            have hle := windowStart_le (d := d) hw k
            by_cases h0 : windowStart d w k = 0
            · rw [h0] at hm ⊢
              obtain rfl : m = k := by
                cases fuel <;> simpa [windows] using hm
              exact ⟨_, hiter (m + 1), by cases fuel <;> rfl⟩
            · refine ih (by omega) (fun l m' s hl => hmix l m' s (List.mem_cons_of_mem _ hl)) ?_ ?_
              · exact hmix _ k _ List.mem_cons_self h0 (hiter _)
              · refine (List.mem_cons.1 hm).resolve_left fun he => h0 ?_
                exact (congrArg Prod.fst he).symm

/-- Two runs of the loop whose rounds keep a relation end in related states. -/
theorem windowLoop_related {τ : Type*} {double : σ → σ} {mix : Int → σ → σ} {double' : τ → τ}
    {mix' : Int → τ → τ} {R : σ → τ → Prop} (hdouble : ∀ s t, R s t → R (double s) (double' t))
    {fuel r : Nat} (hmix : ∀ l m s t, (l, m) ∈ windows d w fuel r → R s t →
      R (mix (digitsValue d l (m + 1 - l)) s) (mix' (digitsValue d l (m + 1 - l)) t))
    {s : σ} {t : τ} (hst : R s t) :
    R (windowLoop d w double mix fuel r s) (windowLoop d w double' mix' fuel r t) := by
  have hiter (k : Nat) (s : σ) (t : τ) (hst : R s t) : R (double^[k] s) (double'^[k] t) := by
    induction k with
    | zero => exact hst
    | succ k ih =>
        rw [Function.iterate_succ_apply', Function.iterate_succ_apply']
        exact hdouble _ _ ih
  induction fuel generalizing r s t with
  | zero => exact hst
  | succ fuel ih =>
      cases r with
      | zero => exact hst
      | succ m =>
          rw [windows] at hmix
          rw [windowLoop, windowLoop]
          split
          · rename_i hd
            rw [if_pos hd] at hmix
            exact ih hmix (hdouble s t hst)
          · rename_i hd
            rw [if_neg hd] at hmix
            exact ih (fun l m' s t hl => hmix l m' s t (List.mem_cons_of_mem _ hl))
              (hmix _ m _ _ List.mem_cons_self (hiter _ s t hst))

/-- What doublings and additions preserve, the loop preserves. -/
theorem windowLoop_preserves {double : σ → σ} {mix : Int → σ → σ} {P : σ → Prop}
    (hdouble : ∀ s, P s → P (double s)) (hmix : ∀ j s, P s → P (mix j s)) {fuel r : Nat} {s : σ}
    (hs : P s) : P (windowLoop d w double mix fuel r s) := by
  induction fuel generalizing r s with
  | zero => exact hs
  | succ fuel ih =>
      cases r with
      | zero => exact hs
      | succ m =>
          rw [windowLoop]
          split
          · exact ih (hdouble s hs)
          · exact ih (hmix _ _ (Function.Iterate.rec P hs hdouble _))

end IdBasedEncryption.SlidingWindow
