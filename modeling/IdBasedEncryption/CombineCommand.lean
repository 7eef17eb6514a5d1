import IdBasedEncryption.ArbitraryShares
import IdBasedEncryption.CryptFiles

namespace IdBasedEncryption.CombineCommand

open CurvePoints ByteStrings PointBytes IbeLib FuelLoops Crypto Format CryptFiles DecryptionStreams
open AuthenticatedStreams ParamsRoundTrip ArbitraryShares

variable {E D Cipher Mac : Type} (mime : Mime E D) (lib : Openssl Cipher Mac)

/-- The passwords that are entered one after the other. Without one
`EVP_read_pw_string` fails. -/
abbrev Passwords := Nat → Option CString

/-- The key shares in the files, unless a password or a file is missing. -/
def loadShares (disk : Disk) (passwords : Passwords) :
    List CString → Nat → Nat → Option (Option (List ByteString))
  | [], _, _ => some (some [])
  | ksfile :: ksfiles, i, fuel =>
      match passwords i with
      | none => some none
      | some pw =>
          (fmtCryptLoad mime lib disk ksfile pw fuel).bind fun r =>
            if r.1 = 0 then some none
            else (loadShares disk passwords ksfiles (i + 1) fuel).map (Option.map (r.2 :: ·))

/-- The command with its arguments, its own name being the first of them. `key` is
what the stack holds at first. The ID is not used. -/
def combine (salt : ByteString) (params : Params) (privkeyfile : CString) (key : ByteString)
    (passwords : Passwords) (disk : Disk) (argv : List CString) (fuel : Nat) :
    Option (Int × Disk) :=
  let count := params.sharet
  if argv.length < 3 then some (1, disk)
  else if (argv.length : Int) - 2 < count then some (1, disk)
  else
    (loadShares mime lib disk passwords ((argv.drop 2).take count.toNat) 0 fuel).bind fun loaded =>
      match loaded with
      | none => some (1, disk)
      | some kshare =>
          -- nothing looks at the number that comes back
          (ibeCombine key kshare params).bind fun r =>
            match passwords count.toNat with
            | none => some (1, disk)
            | some pw => some (0, (fmtCryptSave mime lib salt disk privkeyfile r.2 pw).2)

/-- The command gets to read the given shares and can write its result. -/
structure Session (params : Params) (privkeyfile : CString) (passwords : Passwords) (disk : Disk)
    (argv : List CString) (kshare : List ByteString) : Prop where
  enough : params.sharet + 2 ≤ argv.length
  loads : ∀ i (hi : i < kshare.length), ∃ pw ksfile, passwords i = some pw ∧
    argv[i + 2]? = some ksfile ∧ Returns (fmtCryptLoad mime lib disk ksfile pw) (1, kshare[i])
  password : (passwords kshare.length).isSome = true
  writable : disk.writable privkeyfile = true

variable {mime lib}

section Load

variable {params : Params} {disk : Disk} {passwords : Passwords} {kshare : List ByteString}

theorem returns_loadShares {ksfiles : List CString} {i : Nat}
    (hlen : ksfiles.length = kshare.length)
    (h : ∀ j (hj : j < kshare.length), ∃ pw ksfile, passwords (i + j) = some pw ∧
      ksfiles[j]? = some ksfile ∧ Returns (fmtCryptLoad mime lib disk ksfile pw) (1, kshare[j])) :
    Returns (loadShares mime lib disk passwords ksfiles i) (some kshare) := by
  induction ksfiles generalizing i kshare with
  | nil =>
      obtain rfl := List.length_eq_zero_iff.1 hlen.symm
      exact returns_some _
  | cons f fs ih =>
      have hpos : 0 < kshare.length := by
        rw [← hlen]
        exact Nat.succ_pos _
      obtain ⟨s, ss, rfl⟩ := List.exists_cons_of_length_pos hpos
      obtain ⟨pw, ksfile, hpw, hfile, hload⟩ := h 0 (Nat.succ_pos _)
      obtain rfl := Option.some.inj hfile
      have hrest : Returns (loadShares mime lib disk passwords fs (i + 1)) (some ss) :=
        ih (Nat.succ.inj hlen) fun j hj => by
          have hj' := h (j + 1) (Nat.succ_lt_succ hj)
          rwa [← Nat.add_assoc, Nat.add_right_comm] at hj'
      have hround : loadShares mime lib disk passwords (f :: fs) i = fun fuel =>
          (fmtCryptLoad mime lib disk f pw fuel).bind fun r => if r.1 = 0 then some none
            else (loadShares mime lib disk passwords fs (i + 1) fuel).map (Option.map (r.2 :: ·)) := by
        rw [Nat.add_zero] at hpw
        funext fuel
        simp only [loadShares, hpw]
      rw [hround]
      refine hload.bind ?_
      obtain ⟨n, hn⟩ := hrest
      exact ⟨n, fun m hm => by simp [hn m hm]⟩

/-- When two shares have one index, the command saves the bytes that the stack
held. -/
theorem returns_combine_duplicates {privkeyfile : CString} {argv : List CString}
    (ht : 1 ≤ params.sharet) (hlen : params.sharet = kshare.length)
    (hdup : ¬(kshare.map shareIndex).Nodup)
    (hsession : Session mime lib params privkeyfile passwords disk argv kshare)
    (salt key : ByteString) :
    ∃ pw, Returns (combine mime lib salt params privkeyfile key passwords disk argv)
      (0, (fmtCryptSave mime lib salt disk privkeyfile key pw).2) := by
  have henough := hsession.enough
  obtain ⟨pw, hpw⟩ := Option.isSome_iff_exists.1 hsession.password
  have htake : ((argv.drop 2).take params.sharet.toNat).length = kshare.length := by
    rw [List.length_take, List.length_drop]
    omega
  have hload := returns_loadShares (i := 0) htake fun j hj => by
    obtain ⟨pw, ksfile, hpw, hfile, hrun⟩ := hsession.loads j hj
    have hj' : j < params.sharet.toNat := by omega
    refine ⟨pw, ksfile, by rwa [Nat.zero_add], ?_, hrun⟩
    rwa [List.getElem?_take_of_lt hj', List.getElem?_drop, Nat.add_comm]
  have hcombine := ibeCombine_duplicates hlen hdup key
  refine ⟨pw, ?_⟩
  unfold combine
  simp only [if_neg (show ¬argv.length < 3 by omega),
    if_neg (show ¬(argv.length : Int) - 2 < params.sharet by omega)]
  refine hload.bind ?_
  have hcount : params.sharet.toNat = kshare.length := by omega
  simp only [hcombine, Option.bind_some, hcount, hpw]
  exact returns_some _

end Load

section Duplicates

variable {params : Params} {mshare kshare : List ByteString}

/-- The index of a share has a place in the table. -/
def InTable (params : Params) (share : ByteString) : Prop :=
  0 ≤ shareIndex share ∧ shareIndex share < params.sharen

theorem exists_shareCoefficient (htable : params.robustx.length = params.sharen.toNat)
    {index : List Int} (hindex : ∀ j ∈ index, 0 ≤ j ∧ j < params.sharen) {i : Nat}
    (hi : i < index.length) : ∃ z, shareCoefficient params index i = some z := by
  have hplace : ∀ j ∈ index, ∃ x, robustxAt params j = some x := by
    intro j hj
    obtain ⟨h0, hlt⟩ := hindex j hj
    rw [robustxAt, if_neg (not_lt.2 h0)]
    exact ⟨_, List.getElem?_eq_getElem (by omega)⟩
  obtain ⟨xi, hxi⟩ := hplace _ (List.getElem_mem hi)
  obtain ⟨s, hs⟩ := exists_foldlM_eq_some (l := index.eraseIdx i)
    (g := coefficientRound params index[i]) (fun j hj s => by
      obtain ⟨xj, hxj⟩ := hplace j (List.mem_of_mem_eraseIdx hj)
      exact ⟨_, by simp [coefficientRound, hxj, hxi]; rfl⟩) (1, 1)
  exact ⟨_, by simp [shareCoefficient, hi, hs]; rfl⟩

theorem exists_ibeConstructMaster (htable : params.robustx.length = params.sharen.toNat)
    (hlen : params.sharet = mshare.length) (h : ∀ s ∈ mshare, InTable params s) :
    ∃ master, ibeConstructMaster mshare params = some (1, master) := by
  have hindex : ∀ j ∈ mshare.map shareIndex, 0 ≤ j ∧ j < params.sharen := by
    intro j hj
    obtain ⟨s, hs, rfl⟩ := List.mem_map.1 hj
    exact h s hs
  obtain ⟨x, hx⟩ := exists_foldlM_eq_some (l := List.range mshare.length)
    (g := constructRound params mshare) (fun i hi x => by
      have hlt := List.mem_range.1 hi
      obtain ⟨z, hz⟩ := exists_shareCoefficient htable hindex (i := i) (by rwa [List.length_map])
      exact ⟨_, by simp [constructRound, hlt, hz]; rfl⟩) 0
  rw [ibeConstructMaster, hlen, Int.toNat_natCast, List.take_length]
  exact ⟨_, by simp [hx]; rfl⟩

/-- `IBE_construct_master` does not take the shares. -/
def MasterRefused (mshare : List ByteString) (params : Params) : Prop :=
  ∀ r, ibeConstructMaster mshare params = some r → r.1 = 0

/-- The command does not write to the key file. -/
def KeyFileKept (mime : Mime E D) (lib : Openssl Cipher Mac) (salt : ByteString) (params : Params)
    (privkeyfile : CString) (key : ByteString) (passwords : Passwords) (disk : Disk)
    (argv : List CString) : Prop :=
  ∀ r, Returns (combine mime lib salt params privkeyfile key passwords disk argv) r →
    privkeyfile ∈ r.2.written → privkeyfile ∈ disk.written

/-- Of the two reconstructions only that of keys sees that shares are given twice,
and the command does not ask what it has seen. -/
theorem duplicates_accepted {mime : Mime E D} {lib : Openssl Cipher Mac} {salt key : ByteString}
    {privkeyfile : CString} {passwords : Passwords} {disk : Disk} {argv : List CString}
    (ht : 2 ≤ params.sharet) (htable : params.robustx.length = params.sharen.toNat)
    (hk : params.sharet = kshare.length) (hkdup : ¬(kshare.map shareIndex).Nodup)
    (hm : params.sharet = mshare.length) (hmshare : ∀ s ∈ mshare, InTable params s)
    (hsession : Session mime lib params privkeyfile passwords disk argv kshare)
    (hfresh : privkeyfile ∉ disk.written) :
    ibeCombine key kshare params = some (0, key) ∧ ¬MasterRefused mshare params ∧
      ¬KeyFileKept mime lib salt params privkeyfile key passwords disk argv := by
  refine ⟨ibeCombine_duplicates hk hkdup key, fun h => ?_, fun h => ?_⟩
  · obtain ⟨master, hmaster⟩ := exists_ibeConstructMaster htable hm hmshare
    cases h _ hmaster
  · obtain ⟨pw, hrun⟩ := returns_combine_duplicates (by omega) hk hkdup hsession salt key
    refine hfresh (h _ hrun ?_)
    rw [fmtCryptSave, if_pos hsession.writable]
    exact List.mem_cons_self

end Duplicates

section Sample

def sampleShare : ByteString :=
  byteStringJoin (byteStringSetInt 1) (byteStringSetPoint ⟨⟨113, 0⟩, ⟨123, 0⟩, false⟩)

def shareFile : CString := charstarFromByteString (bytes "share")

def keyFile : CString := charstarFromByteString (bytes "keyfile")

def samplePassword : CString := charstarFromByteString (bytes "password")

/-- A disk with one share in a file. -/
def sampleDisk : Disk :=
  (fmtCryptSave base64 sampleLib sampleIv ⟨fun _ => none, fun _ => true, []⟩ shareFile sampleShare
    samplePassword).2

/-- The file is named twice. -/
def sampleArgv : List CString :=
  [charstarFromByteString (bytes "combine"), charstarFromByteString (bytes "alice"), shareFile,
    shareFile]

/-- The parameters for two of three shares. -/
def twoOfThree : Params := sampleShared 2 3 ⟨⟨113, 0⟩, ⟨123, 0⟩, false⟩

theorem session_sample : Session base64 sampleLib twoOfThree keyFile (fun _ => some samplePassword)
    sampleDisk sampleArgv [sampleShare, sampleShare] where
  enough := le_rfl
  loads i hi := by
    have hload : Returns (fmtCryptLoad base64 sampleLib sampleDisk shareFile samplePassword)
        (1, sampleShare) :=
      fmtCryptLoad_save lossless_base64 inverse_sampleLib (by decide) (by decide) rfl rfl sampleShare
        samplePassword
    have hi2 : i < 2 := hi
    refine ⟨samplePassword, shareFile, rfl, ?_, ?_⟩ <;> interval_cases i
    · rfl
    · rfl
    · exact hload
    · exact hload
  password := rfl
  writable := rfl

theorem inTable_sampleShare : ∀ s ∈ [sampleShare, sampleShare], InTable twoOfThree s := by
  have h : InTable twoOfThree sampleShare := ⟨by decide, by decide⟩
  simp [h]

theorem wellFormed_sampleShare : WellFormed twoOfThree sampleShare where
  length := by decide
  index := by decide
  point := by
    refine ⟨⟨⟨113, 0⟩, ⟨123, 0⟩, false⟩, ⟨rfl, ?_, ?_, ?_⟩, ?_⟩
    all_goals decide

theorem duplicates_accepted_sample :
    ibeCombine [] [sampleShare, sampleShare] twoOfThree = some (0, []) ∧
      ¬MasterRefused [sampleShare, sampleShare] twoOfThree ∧
      ¬KeyFileKept base64 sampleLib sampleIv twoOfThree keyFile [] (fun _ => some samplePassword)
        sampleDisk sampleArgv :=
  duplicates_accepted (by decide) rfl rfl (by simp) rfl inTable_sampleShare session_sample
    (by decide)

/-- One file that is named twice makes both a key file and a master key. -/
theorem not_refused :
    ¬∀ (params : Params) (kshare mshare : List ByteString), 2 ≤ params.sharet →
      params.sharet = kshare.length → (∀ s ∈ kshare, WellFormed params s) →
      ¬(kshare.map shareIndex).Nodup → params.sharet = mshare.length →
      (∀ s ∈ mshare, InTable params s) → ¬(mshare.map shareIndex).Nodup →
      (∀ key, ibeCombine key kshare params = some (0, key)) ∧ MasterRefused mshare params ∧
        ∀ key passwords disk argv,
          Session base64 sampleLib params keyFile passwords disk argv kshare →
          KeyFileKept base64 sampleLib sampleIv params keyFile key passwords disk argv := by
  intro h
  obtain ⟨-, hmaster, -⟩ := h twoOfThree [sampleShare, sampleShare] [sampleShare, sampleShare]
    (by decide) rfl (by simp [wellFormed_sampleShare]) (by simp) rfl inTable_sampleShare (by simp)
  obtain ⟨master, hmade⟩ : ∃ master, ibeConstructMaster [sampleShare, sampleShare] twoOfThree =
      some (1, master) := exists_ibeConstructMaster rfl rfl inTable_sampleShare
  cases hmaster _ hmade

end Sample

end IdBasedEncryption.CombineCommand
