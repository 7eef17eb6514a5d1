import IdBasedEncryption.FormFields
import IdBasedEncryption.IbeLib

namespace IdBasedEncryption.IdStrings

open ByteStrings FormFields IbeLib

def subjectField : Option CString → ByteString
  | none => []
  | some subject => bytes "subject=" ++ subject.val ++ bytes "&"

/-- What the calls of `sprintf` write to `s`, one behind the other. -/
def makeIdBytes (year addr : CString) (subject : Option CString) (params : Params) : ByteString :=
  bytes "purpose=email&date=" ++ year.val ++ bytes "&id=" ++ addr.val ++ bytes "&" ++
    subjectField subject ++ (bytes "system=" ++ params.id.val)

theorem zero_notMem_makeIdBytes (year addr : CString) (subject : Option CString)
    (params : Params) : 0 ∉ makeIdBytes year addr subject params := by
  have hsubject : 0 ∉ subjectField subject := by
    cases subject with
    | none => exact List.not_mem_nil
    | some s =>
        simp only [subjectField, List.mem_append, not_or]
        exact ⟨⟨by decide, s.property⟩, by decide⟩
  simp only [makeIdBytes, List.mem_append, not_or]
  exact ⟨⟨⟨⟨⟨⟨by decide, year.property⟩, by decide⟩, addr.property⟩,
    by decide⟩, hsubject⟩, by decide, params.id.property⟩

/-- `year` is what `FMT_get_year` returns. -/
def fmtMakeId (year : CString) (addr subject : Option CString) (params : Params) : Option CString :=
  addr.map fun addr =>
    ⟨makeIdBytes year addr subject params, zero_notMem_makeIdBytes year addr subject params⟩

section Collisions

/-- The subject with the delimiter before it. -/
def subjectTail : Option CString → ByteString
  | none => []
  | some subject => bytes "&subject=" ++ subject.val

/-- The second address is the first one with a whole subject field behind it. -/
def Absorbs (addr₁ : CString) (subject₁ : Option CString) (addr₂ : CString)
    (subject₂ : Option CString) : Prop :=
  ∃ r u : CString, addr₂.val = addr₁.val ++ bytes "&subject=" ++ r.val ∧ subject₁ = some u ∧
    u.val = r.val ++ subjectTail subject₂

theorem subjectField_eq (subject : Option CString) :
    bytes "&" ++ subjectField subject = subjectTail subject ++ bytes "&" := by
  cases subject with
  | none => rfl
  | some s =>
      have hname : bytes "&" ++ bytes "subject=" = bytes "&subject=" := by decide
      rw [subjectField, subjectTail, ← List.append_assoc, ← List.append_assoc, hname]

theorem subjectTail_injective : Function.Injective subjectTail := by
  intro s t h
  cases s with
  | none =>
      cases t with
      | none => rfl
      | some u => exact absurd h.symm (List.append_ne_nil_of_left_ne_nil (by decide) _)
  | some u =>
      cases t with
      | none => exact absurd h (List.append_ne_nil_of_left_ne_nil (by decide) _)
      | some v => exact congrArg some (Subtype.ext (List.append_cancel_left h))

theorem fmtMakeId_eq_iff (year : CString) (params : Params) (a₁ a₂ : CString)
    (s₁ s₂ : Option CString) :
    fmtMakeId year (some a₁) s₁ params = fmtMakeId year (some a₂) s₂ params ↔
      a₁.val ++ subjectTail s₁ = a₂.val ++ subjectTail s₂ := by
  have hform (a : CString) (s : Option CString) : makeIdBytes year a s params =
      (bytes "purpose=email&date=" ++ year.val ++ bytes "&id=") ++ ((a.val ++ subjectTail s) ++
        (bytes "&" ++ (bytes "system=" ++ params.id.val))) := by
    have h := subjectField_eq s
    simp only [makeIdBytes, List.append_assoc] at h ⊢
    rw [← List.append_assoc (bytes "&"), h, List.append_assoc]
  simp only [fmtMakeId, Option.map_some, Option.some.injEq, Subtype.mk.injEq, hform,
    List.append_cancel_left_eq, List.append_cancel_right_eq]

/-- A delimiter occurs at the start of the name only. -/
theorem eq_nil_of_split {d e t : ByteString} {s : Option CString} (hd : d ≠ [])
    (hname : bytes "&subject=" = d ++ e) (htail : subjectTail s = e ++ t) : e = [] := by
  cases d with
  | nil => exact absurd rfl hd
  | cons c d =>
      have hrest : d ++ e = bytes "subject=" := by
        have h : c :: (d ++ e) = 38 :: bytes "subject=" := hname.symm
        exact (List.cons.inj h).2
      cases e with
      | nil => rfl
      | cons b e =>
          have hb : b ∈ bytes "subject=" := by
            rw [← hrest]
            exact List.mem_append_right _ List.mem_cons_self
          cases s with
          | none => exact absurd htail (by simp [subjectTail])
          | some u =>
              have h : 38 :: (bytes "subject=" ++ u.val) = b :: (e ++ t) := htail
              rw [← (List.cons.inj h).1] at hb
              exact absurd hb (by decide)

theorem absorbs_of_longer {a₁ a₂ : CString} {s₁ s₂ : Option CString} {d : ByteString} (hd : d ≠ [])
    (haddr : a₂.val = a₁.val ++ d) (htail : subjectTail s₁ = d ++ subjectTail s₂) :
    Absorbs a₁ s₁ a₂ s₂ := by
  cases s₁ with
  | none => exact absurd (List.append_eq_nil_iff.1 htail.symm).1 hd
  | some u =>
      obtain ⟨r, hr, hu⟩ : ∃ r, d = bytes "&subject=" ++ r ∧ u.val = r ++ subjectTail s₂ := by
        rcases List.append_eq_append_iff.1 htail with ⟨r, hr, hu⟩ | ⟨e, he, hu⟩
        · exact ⟨r, hr, hu⟩
        · have hnil := eq_nil_of_split hd he hu
          subst hnil
          exact ⟨[], by simpa using he.symm, by simpa using hu.symm⟩
      have h0 : 0 ∉ r := by
        intro hmem
        apply u.property
        rw [hu]
        exact List.mem_append_left _ hmem
      exact ⟨⟨r, h0⟩, u, by rw [haddr, hr, List.append_assoc], rfl, hu⟩

theorem Absorbs.fmtMakeId_eq {a₁ a₂ : CString} {s₁ s₂ : Option CString} (h : Absorbs a₁ s₁ a₂ s₂)
    (year : CString) (params : Params) :
    fmtMakeId year (some a₁) s₁ params = fmtMakeId year (some a₂) s₂ params := by
  obtain ⟨r, u, haddr, rfl, hu⟩ := h
  rw [fmtMakeId_eq_iff, haddr, subjectTail, hu]
  simp only [List.append_assoc]

theorem Absorbs.ne {a₁ a₂ : CString} {s₁ s₂ : Option CString} (h : Absorbs a₁ s₁ a₂ s₂) :
    a₁ ≠ a₂ := by
  obtain ⟨r, u, haddr, -, -⟩ := h
  rintro rfl
  have hlen := congrArg List.length haddr
  have hname : (bytes "&subject=").length = 9 := by decide
  simp only [List.length_append, hname] at hlen
  omega

/-- Two meanings have one identity exactly when one address has absorbed the
subject of the other. -/
theorem distinguishes_iff (year : CString) (params : Params) (a₁ a₂ : CString)
    (s₁ s₂ : Option CString) :
    (fmtMakeId year (some a₁) s₁ params = fmtMakeId year (some a₂) s₂ params → a₁ = a₂ ∧ s₁ = s₂) ↔
      ¬Absorbs a₁ s₁ a₂ s₂ ∧ ¬Absorbs a₂ s₂ a₁ s₁ := by
  constructor
  · intro h
    constructor
    · intro habs
      exact habs.ne (h (habs.fmtMakeId_eq year params)).1
    · intro habs
      exact habs.ne (h (habs.fmtMakeId_eq year params).symm).1.symm
  · rintro ⟨h₁, h₂⟩ heq
    rcases List.append_eq_append_iff.1 ((fmtMakeId_eq_iff year params a₁ a₂ s₁ s₂).1 heq) with
      ⟨d, haddr, htail⟩ | ⟨d, haddr, htail⟩
    · by_cases hd : d = []
      · subst hd
        exact ⟨(Subtype.ext (by simpa using haddr)).symm, subjectTail_injective htail⟩
      · exact absurd (absorbs_of_longer hd haddr htail) h₁
    · by_cases hd : d = []
      · subst hd
        exact ⟨Subtype.ext (by simpa using haddr), (subjectTail_injective htail).symm⟩
      · exact absurd (absorbs_of_longer hd haddr htail) h₂

def bob : CString := charstarFromByteString (decoded (bytes "bob@example.com"))

/-- The delimiters are escaped in the form. -/
def bobHello : CString := charstarFromByteString (decoded (bytes "bob@example.com%26subject%3Dhello"))

def hello : CString := charstarFromByteString (decoded (bytes "hello"))

theorem absorbs_bob : Absorbs bob (some hello) bobHello none :=
  ⟨hello, hello, by decide +kernel, rfl, by decide +kernel⟩

/-- The address that the form decoder makes of an escaped subject field. -/
theorem not_distinguishes : bob.val ≠ [] ∧ bobHello.val ≠ [] ∧
    ∀ (year : CString) (params : Params),
      ¬(fmtMakeId year (some bob) (some hello) params = fmtMakeId year (some bobHello) none params →
        bob = bobHello ∧ some hello = none) := by
  refine ⟨by decide +kernel, by decide +kernel, ?_⟩
  intro year params h
  have heq := h (absorbs_bob.fmtMakeId_eq year params)
  exact absorbs_bob.ne heq.1

end Collisions

end IdBasedEncryption.IdStrings
