import IdBasedEncryption.AuthenticatedStreams
import IdBasedEncryption.KeyEncapsulation

namespace IdBasedEncryption.HiddenKeys

open IncrementalStreams ByteStrings IbeLib Crypto DecryptionStreams AuthenticatedStreams MordellGroup CurvePoints PointBytes
open PointValues KeyEncapsulation

variable {Cipher Mac : Type}

section Model

variable (lib : Openssl Cipher Mac) (md : ByteString → ByteString)

/-- `K` under one secret after the other, with a fresh initialization vector each
time. -/
def hideLoop (salts : Nat → ByteString) (K : ByteString) :
    Nat → List ByteString → Option (List ByteString)
  | _, [] => some []
  | i, secret :: secrets => do
      let V ← cryptoEncrypt lib (salts i) K secret
      let Vs ← hideLoop salts K (i + 1) secrets
      return V :: Vs

/-- The returned number comes with `U` and the array `V`, which is cleared when an
encryption fails. -/
def ibeHideKeyArray (r : Int) (salts : Nat → ByteString) (U : ByteString) (ids : List CString)
    (K : ByteString) (params : Params) : Option (Int × ByteString × List ByteString) := do
  let (secrets, U) ← ibeKemEncryptArray md r U ids params
  match hideLoop lib salts K 0 secrets with
  | none => return (0, U, [])
  | some V => return (1, U, V)

def ibeHideKey (r : Int) (salts : Nat → ByteString) (U : ByteString) (id : CString) (K : ByteString)
    (params : Params) : Option (Int × ByteString × ByteString) := do
  let (result, U, bs) ← ibeHideKeyArray lib md r salts U [id] K params
  return (result, U, bs.headD [])

/-- The returned number comes with the key. -/
def ibeRevealKey (U V privkey : ByteString) (params : Params) : Int × ByteString :=
  match cryptoDecrypt lib V (ibeKemDecrypt md U privkey params) with
  | none => (0, [])
  | some K => (1, K)

end Model

variable {lib : Openssl Cipher Mac} {md : ByteString → ByteString} {params : Params}
  {salts : Nat → ByteString} {K U V key : ByteString}

section Sealed

/-- The entry for a secret is the key sealed under it. -/
theorem hideLoop_eq (hlib : Inverse lib) (hsalts : ∀ i, (salts i).length = lib.ivLength)
    (secrets : List ByteString) (i : Nat) :
    ∃ V, hideLoop lib salts K i secrets = some V ∧
      List.Forall₂ (fun secret V => ∃ j, V = sealed lib (salts j) secret K) secrets V := by
  induction secrets generalizing i with
  | nil => exact ⟨[], rfl, .nil⟩
  | cons secret secrets ih =>
      obtain ⟨V, hV, hrel⟩ := ih (i + 1)
      have henc := cryptoEncrypt_eq hlib secret (hsalts i) K
      refine ⟨sealed lib (salts i) secret K :: V, ?_, .cons ⟨i, rfl⟩ hrel⟩
      simp only [hideLoop, henc, hV, Option.bind_eq_bind, Option.bind_some, Option.pure_def]

/-- What is revealed has been authenticated under the secret that belongs to the
private key. -/
theorem accepts_of_reveal (hlib : Reliable lib) (h0 : 0 < lib.ivLength)
    (hlt : lib.ivLength < lib.mdLength) (h : (ibeRevealKey lib md U V key params).1 = 1) :
    Accepts lib (ibeKemDecrypt md U key params) V := by
  obtain ⟨c, out, hrun, hc⟩ := feed_received hlib h0 (ibeKemDecrypt md U key params) [V]
  obtain ⟨hiff, -, -⟩ := hc.final_eq hlib hlt
  rw [feed_singleton] at hrun
  rw [List.flatten_singleton] at hiff
  refine hiff.1 (Option.isSome_iff_ne_none.2 fun hnone => ?_)
  rw [ibeRevealKey, cryptoDecrypt, hrun, Option.bind_eq_bind, Option.bind_some] at h
  simp [hnone] at h

theorem reveal_sealed (hlib : Inverse lib) (h0 : 0 < lib.ivLength) (hlt : lib.ivLength < lib.mdLength)
    {i : Nat} (hsalt : (salts i).length = lib.ivLength)
    (hV : V = sealed lib (salts i) (ibeKemDecrypt md U key params) K) :
    ibeRevealKey lib md U V key params = (1, K) := by
  have hopen := cryptoDecrypt_sealed hlib (ibeKemDecrypt md U key params) h0 hlt hsalt K
  rw [ibeRevealKey, hV, hopen]

end Sealed

section Hidden

/-- The private key reveals `K`, and any other one that is taken for it leads to a
secret with the same MAC. -/
structure Hidden (lib : Openssl Cipher Mac) (md : ByteString → ByteString) (params : Params)
    (K U key V : ByteString) : Prop where
  reveal_eq : ibeRevealKey lib md U V key params = (1, K)
  mac_eq (U' key' : ByteString) : (ibeRevealKey lib md U' V key' params).1 = 1 →
    hmac lib (ibeKemDecrypt md U' key' params) (released lib.mdLength V) =
      hmac lib (ibeKemDecrypt md U key params) (released lib.mdLength V)

theorem hidden_sealed (hlib : Inverse lib) (h0 : 0 < lib.ivLength) (hlt : lib.ivLength < lib.mdLength)
    {i : Nat} (hsalt : (salts i).length = lib.ivLength)
    (hV : V = sealed lib (salts i) (ibeKemDecrypt md U key params) K) :
    Hidden lib md params K U key V where
  reveal_eq := reveal_sealed hlib h0 hlt hsalt hV
  mac_eq U' key' h := by
    have hother := accepts_of_reveal hlib.toReliable h0 hlt h
    have hown := (accepts_sealed hlib (ibeKemDecrypt md U key params) hsalt K).1
    rw [← hV] at hown
    exact hother.mac_eq.trans hown.mac_eq.symm

variable {p : Nat} [hp : Fact p.Prime] [hp12 : Fact (p % 12 = 11)] {ids : List CString}

/-- The entries for correct secrets hide the key from everyone else. -/
theorem hides_of_kemCorrect (hlib : Inverse lib) (h0 : 0 < lib.ivLength)
    (hlt : lib.ivLength < lib.mdLength) (hsalts : ∀ i, (salts i).length = lib.ivLength)
    {master : ByteString} {r : Int} (h : KemCorrect md master r U ids params) (K : ByteString) :
    ∃ U' V, ibeHideKeyArray lib md r salts U ids K params = some (1, U', V) ∧
      List.Forall₂ (fun id V => ∃ key, ibeExtract md master id params = some key ∧
        Hidden lib md params K U' key V) ids V := by
  obtain ⟨secrets, U', henc, hsecrets⟩ := h
  obtain ⟨V, hV, hsealed⟩ := hideLoop_eq (K := K) hlib hsalts secrets 0
  refine ⟨U', V, by simp [ibeHideKeyArray, henc, hV], ?_⟩
  clear henc hV
  induction hsecrets generalizing V with
  | nil =>
      cases hsealed
      exact .nil
  | cons hkey hrest ih =>
      cases hsealed with
      | cons hone hrest' =>
          obtain ⟨key, hextract, hdec⟩ := hkey
          obtain ⟨i, hi⟩ := hone
          rw [← hdec] at hi
          exact .cons ⟨key, hextract, hidden_sealed hlib h0 hlt (hsalts i) hi⟩ (ih _ hrest')

/-- The entry for the only recipient. -/
theorem hides_one (hlib : Inverse lib) (h0 : 0 < lib.ivLength) (hlt : lib.ivLength < lib.mdLength)
    (hsalts : ∀ i, (salts i).length = lib.ivLength) {master : ByteString} {r : Int} {id : CString}
    (h : KemCorrect md master r U [id] params) (K : ByteString) :
    ∃ U' V key, ibeHideKey lib md r salts U id K params = some (1, U', V) ∧
      ibeExtract md master id params = some key ∧ Hidden lib md params K U' key V := by
  obtain ⟨U', Vs, hrun, hhidden⟩ := hides_of_kemCorrect hlib h0 hlt hsalts h K
  obtain ⟨V, Vs, ⟨key, hkey, hV⟩, -, rfl⟩ := List.forall₂_cons_left_iff.1 hhidden
  exact ⟨U', V, key, by simp [ibeHideKey, hrun], hkey, hV⟩

/-- Every recipient reveals the key that was hidden, and nobody else does without a
collision of MACs. -/
theorem hides_setup {q x r : Nat} {name : CString} {G : E p} (h : Founded q x name G params)
    (hc : KemCondition p q x r) (hrq : r < q)
    (hids : ∀ id ∈ ids, ∃ B : E p, MapsTo md params (byteStringSet id) q B) (hlib : Inverse lib)
    (h0 : 0 < lib.ivLength) (hlt : lib.ivLength < lib.mdLength)
    (hsalts : ∀ i, (salts i).length = lib.ivLength) (U K : ByteString) :
    ∃ U' V, ibeHideKeyArray lib md r salts U ids K params = some (1, U', V) ∧
      List.Forall₂ (fun id V => ∃ key, ibeExtract md (byteStringSetMpz x) id params = some key ∧
        Hidden lib md params K U' key V) ids V :=
  hides_of_kemCorrect hlib h0 hlt hsalts (h.kemCorrect hc hrq hids U) K

theorem hides_gen :
    ∃ U V, ibeHideKeyArray sampleLib id 1 (fun _ => sampleIv) [] [genId] (bytes "hi") genParams =
        some (1, U, V) ∧
      List.Forall₂ (fun id' V => ∃ key, ibeExtract id (byteStringSetMpz 2) id' genParams = some key ∧
        Hidden sampleLib id genParams (bytes "hi") U key V) [genId] V := by
  refine hides_setup founded_gen kemCondition_gen (by norm_num) ?_ inverse_sampleLib (by decide)
    (by decide) (fun _ => rfl) [] (bytes "hi")
  intro id' hid
  obtain rfl := List.mem_singleton.1 hid
  exact ⟨gen, mapsTo_genId⟩

end Hidden

end IdBasedEncryption.HiddenKeys
